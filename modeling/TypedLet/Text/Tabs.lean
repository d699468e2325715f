namespace TypedLet.Text

def tabWidth : Nat := 8

/-- A tab becomes spaces up to the next multiple of `tabWidth`. The column starts over
after a line feed and after a carriage return. -/
def expandTabsFrom (column : Nat) : List Char → List Char
  | [] => []
  | c :: cs =>
    if c = '\t' then
      let width := tabWidth - column % tabWidth
      List.replicate width ' ' ++ expandTabsFrom (column + width) cs
    else c :: expandTabsFrom (if c = '\n' ∨ c = '\r' then 0 else column + 1) cs

def expandTabs (s : String) : String := String.ofList (expandTabsFrom 0 s.toList)

theorem tab_notMem_expandTabsFrom (column : Nat) (s : List Char) :
    '\t' ∉ expandTabsFrom column s := by
  induction s generalizing column with
  | nil => simp [expandTabsFrom]
  | cons c cs ih =>
    by_cases h : c = '\t'
    · simp [expandTabsFrom, h, ih]
    · simp [expandTabsFrom, h, ih, Ne.symm h]

theorem length_expandTabsFrom_le (column : Nat) (s : List Char) :
    (expandTabsFrom column s).length ≤ tabWidth * s.length := by
  induction s generalizing column with
  | nil => exact Nat.zero_le _
  | cons c cs ih =>
    rw [expandTabsFrom, List.length_cons, Nat.mul_succ]
    split
    · have hcs := ih (column + (tabWidth - column % tabWidth))
      rw [List.length_append, List.length_replicate]
      omega
    · have hcs := ih (if c = '\n' ∨ c = '\r' then 0 else column + 1)
      have hpos : 1 ≤ tabWidth := by decide
      rw [List.length_cons]
      omega

theorem expandTabsFrom_eq_self {column : Nat} {s : List Char} (h : '\t' ∉ s) :
    expandTabsFrom column s = s := by
  induction s generalizing column with
  | nil => rfl
  | cons c cs ih =>
    simp only [List.mem_cons, not_or] at h
    simp [expandTabsFrom, Ne.symm h.1, ih h.2]

end TypedLet.Text

import TypedLet.Text.Slice

namespace TypedLet.Text

/-- The pieces between line feeds; there is always at least one. -/
def lines : List Char → List (List Char)
  | [] => [[]]
  | c :: cs => if c = '\n' then [] :: lines cs else (lines cs).modifyHead (c :: ·)

def lineStartsFrom (i : Nat) : List Char → List Nat
  | [] => []
  | c :: cs =>
    if c = '\n' then (i + 1) :: lineStartsFrom (i + 1) cs else lineStartsFrom (i + 1) cs

def lineStarts (s : List Char) : List Nat := 0 :: lineStartsFrom 0 s

/-- The number, from 1, of the line that holds a position; 0 before the text. -/
def lineAt (s : List Char) (i : Int) : Nat :=
  (lineStarts s).countP fun (start : Nat) ↦ (start : Int) ≤ i

/-- The text of a line by its number; number 0 names the last line. -/
def lineText (s : List Char) (number : Nat) : List Char :=
  (item? (lines s) ((number : Int) - 1)).getD []

/-- The place where a line begins by its number; number 0 names the last line. -/
def lineStart (s : List Char) (number : Nat) : Nat :=
  (item? (lineStarts s) ((number : Int) - 1)).getD 0

theorem length_lines (s : List Char) : (lines s).length = s.count '\n' + 1 := by
  induction s with
  | nil => rfl
  | cons c cs ih => by_cases hc : c = '\n' <;> simp [lines, hc, ih]

theorem length_lineStartsFrom (i : Nat) (s : List Char) :
    (lineStartsFrom i s).length = s.count '\n' := by
  induction s generalizing i with
  | nil => rfl
  | cons c cs ih => by_cases hc : c = '\n' <;> simp [lineStartsFrom, hc, ih]

theorem length_lineStarts (s : List Char) : (lineStarts s).length = (lines s).length := by
  simp [lineStarts, length_lineStartsFrom, length_lines]

end TypedLet.Text

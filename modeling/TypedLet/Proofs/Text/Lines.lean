import TypedLet.Span.Excerpt
import TypedLet.Text.Tabs

namespace TypedLet

namespace Text

variable {α : Type} {xs : List α} {a : α} {s l : List Char} {c : Char} {i : Int} {k n : Nat}

theorem item?_isSome (hi : 0 ≤ i) (h : i < xs.length) : (item? xs i).isSome := by
  obtain ⟨m, rfl⟩ := Int.eq_ofNat_of_zero_le hi
  rw [item?_natCast, List.getElem?_eq_getElem (by omega)]
  rfl

theorem mem_expandTabsFrom (h : c ∈ expandTabsFrom k s) : c = ' ' ∨ c ∈ s := by
  induction s generalizing k with
  | nil => cases h
  | cons d s ih =>
    rw [expandTabsFrom] at h
    split at h
    · rcases List.mem_append.mp h with h | h
      · exact .inl (List.eq_of_mem_replicate h)
      · exact (ih h).imp_right (List.mem_cons_of_mem d)
    · rcases List.mem_cons.mp h with rfl | h
      · exact .inr List.mem_cons_self
      · exact (ih h).imp_right (List.mem_cons_of_mem d)

theorem newline_notMem_expandTabs {source : String} (h : '\n' ∉ source.toList) :
    '\n' ∉ (expandTabs source).toList := by
  intro hc
  rw [expandTabs, String.toList_ofList] at hc
  exact (mem_expandTabsFrom hc).elim (by decide) h

theorem lines_eq_singleton (h : '\n' ∉ s) : lines s = [s] := by
  induction s with
  | nil => rfl
  | cons c s ih =>
    obtain ⟨hc, hs⟩ := not_or.mp (h ∘ List.mem_cons.mpr)
    rw [lines, if_neg (Ne.symm hc), ih hs]
    rfl

/-- A place that is not before the text is on one of its lines. -/
theorem lineAt_bounds (s : List Char) (hi : 0 ≤ i) :
    1 ≤ lineAt s i ∧ lineAt s i ≤ (lines s).length := by
  constructor
  · rw [lineAt, lineStarts, List.countP_cons_of_pos (by simpa using hi)]
    omega
  · rw [← length_lineStarts]
    exact List.countP_le_length

theorem lineAt_eq_one (h : '\n' ∉ s) (hi : 0 ≤ i) : lineAt s i = 1 := by
  have hb := lineAt_bounds s hi
  rw [lines_eq_singleton h, List.length_singleton] at hb
  omega

end Text

namespace Span

open Text

variable {a : Span} {before : Int} {last n : Nat}

/-- All lines that the excerpt of a stretch looks up are there. -/
def Shows (a : Span) (before : Int) : Prop :=
  let src := a.src.toList
  let line := lineAt src a.start
  (∀ n ∈ line :: shownLines line before, (item? (lines src) ((n : Int) - 1)).isSome) ∧
    (item? (lineStarts src) ((line : Int) - 1)).isSome

theorem bounds_of_mem_shownLines (h : n ∈ shownLines last before) : 1 ≤ n ∧ n ≤ last := by
  simp only [shownLines, List.mem_range'_1] at h
  omega

theorem shows_of_nonneg (h : 0 ≤ a.start) (before : Int) : a.Shows before := by
  obtain ⟨hlow, hhigh⟩ := lineAt_bounds a.src.toList h
  refine ⟨fun n hn ↦ ?_, item?_isSome (by omega) (by rw [length_lineStarts]; omega)⟩
  have hn : 1 ≤ n ∧ n ≤ lineAt a.src.toList a.start := by
    rcases List.mem_cons.mp hn with rfl | hn
    · exact ⟨hlow, Nat.le_refl _⟩
    · exact bounds_of_mem_shownLines hn
  exact item?_isSome (by omega) (by omega)

/-- The excerpt of a stretch of a text without line feeds shows the text, then the underline. -/
theorem excerptLines_of_line (hsrc : '\n' ∉ a.src.toList) (hstart : 0 ≤ a.start) (marker : String) :
    a.excerptLines marker 1 = [numberedLine a.src.toList 1, a.underline marker] := by
  rw [excerptLines, lineAt_eq_one hsrc hstart]
  rfl

end Span

end TypedLet

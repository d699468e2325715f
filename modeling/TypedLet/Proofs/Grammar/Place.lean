import Mathlib.Data.List.TakeWhile
import TypedLet.Grammar.Lexeme

namespace TypedLet.Grammar

/-- The place in a text that has `i` characters behind it. -/
def Cursor.inText (text : String) (i : Nat) : Cursor :=
  ⟨text, i, (text.toList.take i).getLast?, text.toList.drop i⟩

/-- The word `w` stands in a text from `i` to `j`. -/
def Stands (s w : List Char) (i j : Nat) : Prop := w <+: s.drop i ∧ j = i + w.length

/-- Nothing but layout stands from `i` to `j`. -/
def Blank (s : List Char) (i j : Nat) : Prop := ∃ w, Stands s w i j ∧ ∀ c ∈ w, isLayout c

/-- Where the layout ends that begins at `i`. -/
def skip (s : List Char) (i : Nat) : Nat := i + ((s.drop i).takeWhile isLayout).length

def wordBefore (s : List Char) (i : Nat) : Bool := (s.take i).getLast?.any isWordChar

def wordAfter (s : List Char) (i : Nat) : Bool := (s.drop i).head?.any isWordChar

variable {s w v : List Char} {i j k q : Nat}

theorem Cursor.start_eq (text : String) : Cursor.start text = .inText text 0 := by
  simp [Cursor.start, Cursor.inText]

theorem Cursor.advance_inText (text : String) (i n : Nat) :
    (Cursor.inText text i).advance n = .inText text (i + n) := by
  simp only [advance, inText, List.take_add, List.getLast?_append, List.drop_drop]

theorem Cursor.skipLayout_inText (text : String) (i : Nat) :
    (Cursor.inText text i).skipLayout = .inText text (skip text.toList i) :=
  advance_inText text i _

theorem Stands.le (h : Stands s w i j) : i ≤ j := by
  have := h.2
  omega

theorem Stands.lt (h : Stands s w i j) (hw : w ≠ []) : i < j := by
  have := h.2
  have := List.length_pos_iff.mpr hw
  omega

theorem Stands.le_length (h : Stands s w i j) (hi : i ≤ s.length) : j ≤ s.length := by
  have hl := h.1.length_le
  have := h.2
  rw [List.length_drop] at hl
  omega

theorem Stands.le_length_of_ne_nil (h : Stands s w i j) (hw : w ≠ []) : j ≤ s.length := by
  have hl := h.1.length_le
  have := h.2
  have := List.length_pos_iff.mpr hw
  rw [List.length_drop] at hl
  omega

theorem Stands.drop_eq (h : Stands s w i j) : s.drop i = w ++ s.drop j := by
  obtain ⟨⟨r, hr⟩, rfl⟩ := h
  rw [← List.drop_drop, ← hr, List.drop_left]

theorem Stands.take_eq (h : Stands s w i j) : s.take j = s.take i ++ w := by
  obtain ⟨⟨r, hr⟩, rfl⟩ := h
  rw [List.take_add, ← hr, List.take_left]

theorem Stands.head_eq (h : Stands s w i j) (hw : w ≠ []) : (s.drop i).head? = w.head? := by
  rw [h.drop_eq]
  cases w with
  | nil => exact absurd rfl hw
  | cons c w => rfl

theorem Stands.getLast_eq (h : Stands s w i j) (hw : w ≠ []) :
    (s.take j).getLast? = w.getLast? := by
  rw [h.take_eq, List.getLast?_append, List.getLast?_eq_some_getLast hw, Option.some_or]

theorem stands_takeWhile (s : List Char) (p : Char → Bool) (i : Nat) :
    Stands s ((s.drop i).takeWhile p) i (i + ((s.drop i).takeWhile p).length) :=
  ⟨List.takeWhile_prefix p, rfl⟩

theorem Stands.takeWhile_eq {p : Char → Bool} (h : Stands s w i j) (hw : ∀ c ∈ w, p c)
    (hj : (s.drop j).head?.any p = false) : (s.drop i).takeWhile p = w := by
  rw [h.drop_eq, List.takeWhile_append_of_pos hw]
  cases hd : s.drop j with
  | nil => simp
  | cons c r =>
    rw [hd] at hj
    simp only [List.head?_cons, Option.any_some] at hj
    simp [hj]

theorem head_drop_takeWhile (s : List Char) (p : Char → Bool) (i : Nat) :
    (s.drop (i + ((s.drop i).takeWhile p).length)).head?.any p = false := by
  rw [← List.drop_drop, drop_length_takeWhile]
  cases h : (s.drop i).dropWhile p with
  | nil => rfl
  | cons c r =>
    have := List.head?_dropWhile_not p (s.drop i)
    rw [h] at this
    simpa using this

theorem isLayout_iff {c : Char} : isLayout c ↔ c = ' ' ∨ c = '\t' ∨ c = '\n' ∨ c = '\r' := by
  simp [isLayout, or_assoc]

theorem not_isWordChar_of_isLayout {c : Char} (h : isLayout c) : isWordChar c = false := by
  rcases isLayout_iff.mp h with rfl | rfl | rfl | rfl <;> decide

theorem le_skip (s : List Char) (i : Nat) : i ≤ skip s i := Nat.le_add_right _ _

theorem blank_skip (s : List Char) (i : Nat) : Blank s i (skip s i) :=
  ⟨_, stands_takeWhile s isLayout i, fun _ hc ↦ List.mem_takeWhile_imp hc⟩

theorem head_skip (s : List Char) (i : Nat) : (s.drop (skip s i)).head?.any isLayout = false :=
  head_drop_takeWhile s isLayout i

theorem blank_refl (s : List Char) (i : Nat) : Blank s i i :=
  ⟨[], ⟨List.nil_prefix, rfl⟩, by simp⟩

theorem Blank.le (h : Blank s i j) : i ≤ j := by
  obtain ⟨w, hw, -⟩ := h
  exact hw.le

theorem Blank.skip_eq (h : Blank s i j) : skip s i = skip s j := by
  obtain ⟨w, hw, hl⟩ := h
  rw [skip, skip, hw.drop_eq, List.takeWhile_append_of_pos hl, List.length_append, hw.2]
  omega

theorem skip_eq_self (h : (s.drop i).head?.any isLayout = false) : skip s i = i := by
  cases hd : s.drop i with
  | nil => simp [skip, hd]
  | cons c r =>
    rw [hd] at h
    simp only [List.head?_cons, Option.any_some] at h
    simp [skip, hd, h]

theorem skip_skip (s : List Char) (i : Nat) : skip s (skip s i) = skip s i :=
  skip_eq_self (head_skip s i)

theorem Blank.le_skip (h : Blank s i j) : j ≤ skip s i := by
  rw [h.skip_eq]
  exact Grammar.le_skip s j

theorem Stands.append (h : Stands s w i j) (h' : Stands s v j k) : Stands s (w ++ v) i k := by
  refine ⟨⟨s.drop k, ?_⟩, ?_⟩
  · rw [List.append_assoc, ← h'.drop_eq, ← h.drop_eq]
  · rw [List.length_append, ← Nat.add_assoc, ← h.2, h'.2]

theorem Blank.trans (h : Blank s i j) (h' : Blank s j k) : Blank s i k := by
  obtain ⟨w, hw, hl⟩ := h
  obtain ⟨v, hv, hl'⟩ := h'
  exact ⟨w ++ v, hw.append hv, List.forall_mem_append.mpr ⟨hl, hl'⟩⟩

theorem Blank.eq_skip (h : Blank s i q) (hq : (s.drop q).head?.any isLayout = false) :
    q = skip s i := by
  rw [h.skip_eq, skip_eq_self hq]

theorem skip_le_length (h : i ≤ s.length) : skip s i ≤ s.length :=
  (stands_takeWhile s isLayout i).le_length h

theorem wordBefore_skip (h : i < skip s i) : wordBefore s (skip s i) = false := by
  have hs := stands_takeWhile s isLayout i
  have hw : (s.drop i).takeWhile isLayout ≠ [] := by
    intro he
    simp [skip, he] at h
  rw [wordBefore, skip, hs.getLast_eq hw, List.getLast?_eq_some_getLast hw, Option.any_some]
  exact not_isWordChar_of_isLayout (List.mem_takeWhile_imp (List.getLast_mem hw))

end TypedLet.Grammar

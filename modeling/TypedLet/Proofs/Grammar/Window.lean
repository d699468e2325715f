import TypedLet.Proofs.Grammar.Extent
import TypedLet.Proofs.Node.Places

namespace TypedLet.Grammar

/-- What stands in a text from `m` up to `n`. -/
def window (s : List Char) (m n : Nat) : List Char := (s.take n).drop m

variable {s v w digits : List Char} {x : String} {i j k m n o q : Nat}

theorem drop_window (hm : m ≤ i) : (window s m n).drop (i - m) = (s.drop i).take (n - i) := by
  rw [window, List.drop_drop, Nat.add_sub_cancel' hm, List.drop_take]

theorem take_window (hm : m ≤ i) (hn : i ≤ n) :
    (window s m n).take (i - m) = (s.take i).drop m := by
  rw [window, List.drop_take, List.drop_take, List.take_take, Nat.min_eq_left (by omega)]

theorem length_window (hn : n ≤ s.length) : (window s m n).length = n - m := by
  rw [window, List.length_drop, List.length_take, Nat.min_eq_left hn]

theorem Stands.window (h : Stands s w i j) (hm : m ≤ i) (hn : j ≤ n) :
    Stands (window s m n) w (i - m) (j - m) := by
  obtain ⟨hp, rfl⟩ := h
  refine ⟨?_, by omega⟩
  rw [drop_window hm, List.prefix_take_iff]
  exact ⟨hp, by omega⟩

theorem Stands.window_eq (h : Stands s w i j) (hj : j ≤ s.length) : Grammar.window s i j = w := by
  have hi := h.le
  rw [Grammar.window, h.take_eq, List.drop_left' (List.length_take_of_le (by omega))]

theorem Blank.window (h : Blank s i j) (hm : m ≤ i) (hn : j ≤ n) :
    Blank (window s m n) (i - m) (j - m) := by
  obtain ⟨w, hw, hl⟩ := h
  exact ⟨w, hw.window hm hn, hl⟩

theorem head_window {p : Char → Bool} (hm : m ≤ i) (h : (s.drop i).head?.any p = false) :
    ((window s m n).drop (i - m)).head?.any p = false := by
  rw [drop_window hm, List.head?_take]
  split
  · rfl
  · exact h

theorem wordAfter_window (hm : m ≤ i) (h : wordAfter s i = false) :
    wordAfter (window s m n) (i - m) = false :=
  head_window hm h

theorem wordBefore_window (hm : m ≤ i) (hn : i ≤ n) (h : wordBefore s i = false) :
    wordBefore (window s m n) (i - m) = false := by
  rw [wordBefore, take_window hm hn, List.getLast?_drop]
  split
  · rfl
  · exact h

theorem Token.window (h : Token s w i j) (hm : m ≤ i) (hn : j ≤ n) :
    Token (window s m n) w (i - m) (j - m) := by
  obtain ⟨q, hb, hs⟩ := h
  have hi := hb.le
  have hj := hs.le
  exact ⟨q - m, hb.window hm (by omega), hs.window (by omega) hn⟩

theorem Keyword.window (h : Keyword s w i j) (hm : m ≤ i) (hn : j ≤ n) :
    Keyword (window s m n) w (i - m) (j - m) := by
  obtain ⟨q, hb, hs, hbefore, hafter⟩ := h
  have hi := hb.le
  have hj := hs.le
  exact ⟨q - m, hb.window hm (by omega), hs.window (by omega) hn,
    wordBefore_window (by omega) (by omega) hbefore, wordAfter_window (by omega) hafter⟩

theorem Name.window (h : Name s x i j) (hm : m ≤ i) (hn : j ≤ n) :
    Name (window s m n) x (i - m) (j - m) :=
  ⟨h.1.window hm hn, h.2⟩

theorem Numeral.window (h : Numeral s digits i j) (hm : m ≤ i) (hn : j ≤ n) :
    Numeral (window s m n) digits (i - m) (j - m) :=
  ⟨h.1.window hm hn, h.2⟩

theorem skip_window (hm : m ≤ i) (hn : skip s i ≤ n) :
    skip (window s m n) (i - m) = skip s i - m := by
  have hb := (blank_skip s i).window hm hn
  have hi := le_skip s i
  exact (hb.eq_skip (head_window (by omega) (head_skip s i))).symm

/-! What stands in a part of a text stands in the text. -/

theorem Stands.drop_within (h : Stands s v o k) (hi : i ≤ v.length) :
    s.drop (o + i) = v.drop i ++ s.drop k := by
  rw [← List.drop_drop, h.drop_eq, List.drop_append_of_le_length hi]

theorem Stands.take_within (h : Stands s v o k) (hi : i ≤ v.length) :
    s.take (o + i) = s.take o ++ v.take i := by
  rw [List.take_add, h.drop_eq, List.take_append_of_le_length hi]

theorem Stands.within (h : Stands v w i j) (hs : Stands s v o k) (hj : j ≤ v.length) :
    Stands s w (o + i) (o + j) := by
  have hi := h.le
  obtain ⟨hp, rfl⟩ := h
  refine ⟨?_, (Nat.add_assoc _ _ _).symm⟩
  rw [hs.drop_within (by omega)]
  exact hp.trans (List.prefix_append _ _)

theorem Blank.within (h : Blank v i j) (hs : Stands s v o k) (hj : j ≤ v.length) :
    Blank s (o + i) (o + j) := by
  obtain ⟨w, hw, hl⟩ := h
  exact ⟨w, hw.within hs hj, hl⟩

theorem wordBefore_within (h : wordBefore v i = false) (hs : Stands s v o k) (hi : i ≤ v.length)
    (ho : wordBefore s o = false) : wordBefore s (o + i) = false := by
  rw [wordBefore, hs.take_within hi, List.getLast?_append]
  rw [wordBefore] at h ho
  cases hv : (v.take i).getLast? with
  | none => exact ho
  | some c => rwa [hv] at h

theorem wordAfter_within (h : wordAfter v i = false) (hs : Stands s v o k) (hi : i ≤ v.length)
    (hk : wordAfter s k = false) : wordAfter s (o + i) = false := by
  rw [wordAfter, hs.drop_within hi, List.head?_append]
  rw [wordAfter] at h hk
  cases hv : (v.drop i).head? with
  | none => exact hk
  | some c => rwa [hv] at h

end TypedLet.Grammar

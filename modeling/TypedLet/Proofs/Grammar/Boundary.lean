import TypedLet.Proofs.Grammar.Terminal

namespace TypedLet.Grammar

/-- No word runs over a place, so that none can begin in the middle of one there. -/
def Fresh (s : List Char) (i : Nat) : Prop := wordBefore s i = false ∨ wordAfter s i = false

/-- No name that is read up to a place could be longer. -/
def NameEnds (s : List Char) (j : Nat) : Prop := (s.drop j).head?.any isNameChar = false

variable {s w v mark mark' word word' digits : List Char} {x : String} {i j k q : Nat}
variable [IsMark mark] [IsKeyword word] [IsKeyword word']

theorem head_any_mono {p p' : Char → Bool} (hp : ∀ c, p c → p' c) (h : w.head?.any p) :
    w.head?.any p' := by
  cases w with
  | nil => cases h
  | cons c r => exact hp c h

theorem any_eq_false_of_imp {p p' : Char → Bool} {o : Option Char} (hp : ∀ c, p c → p' c)
    (h : o.any p' = false) : o.any p = false := by
  cases o with
  | none => rfl
  | some c => exact (Bool.not_eq_true _).mp fun hc ↦ Bool.noConfusion (h.symm.trans (hp c hc))

theorem takeWhile_ne_nil {p : Char → Bool} (h : w.head?.any p) : w.takeWhile p ≠ [] := by
  cases w with
  | nil => cases h
  | cons c r =>
    rw [List.head?_cons, Option.any_some] at h
    simp [h]

theorem Token.not_mark [IsMark mark'] (h : Token s mark i j) (hne : mark.head? ≠ mark'.head?) :
    ¬ Token s mark' i k :=
  fun h' ↦ hne (h.head_eq.symm.trans h'.head_eq)

theorem Token.not_keyword (h : Token s mark i j) : ¬ Keyword s word i k := by
  intro h'
  have he := h.head_eq.symm.trans h'.head_eq
  cases hw : word.head? with
  | none => exact absurd (List.head?_eq_none_iff.mp hw) IsKeyword.ne_nil
  | some c =>
    have hm := IsMark.not_isWordChar (List.mem_of_head? (he.trans hw))
    rw [isWordChar_of_isNameChar (IsKeyword.isNameChar c (List.mem_of_head? hw))] at hm
    cases hm

theorem wordAfter_of_lt_skip (h : j < skip s j) : wordAfter s j = false := by
  have hs := stands_takeWhile s isLayout j
  have hne : (s.drop j).takeWhile isLayout ≠ [] := by
    intro he
    simp [skip, he] at h
  cases hw : (s.drop j).takeWhile isLayout with
  | nil => exact absurd hw hne
  | cons c r =>
    have hc : isLayout c := List.mem_takeWhile_imp (l := s.drop j) (by rw [hw]; exact .head r)
    rw [wordAfter, hs.head_eq hne, hw]
    exact not_isWordChar_of_isLayout hc

theorem nameEnds_of_wordAfter (h : wordAfter s j = false) : NameEnds s j := by
  unfold wordAfter at h
  unfold NameEnds
  cases hd : (s.drop j).head? with
  | none => rfl
  | some c =>
    rw [hd, Option.any_some, isWordChar, Bool.or_eq_false_iff] at h
    exact h.1

theorem nameEnds_of_lt_skip (h : j < skip s j) : NameEnds s j :=
  nameEnds_of_wordAfter (wordAfter_of_lt_skip h)

theorem nameEnds_of_skip (h : (s.drop (skip s j)).head?.any isNameChar = false) :
    NameEnds s j := by
  rcases Nat.lt_or_eq_of_le (le_skip s j) with hlt | he
  · exact nameEnds_of_lt_skip hlt
  · rwa [← he] at h

theorem Token.nameEnds (h : Token s mark j k) : NameEnds s j := by
  refine nameEnds_of_skip ?_
  rw [h.head_eq]
  cases hm : mark.head? with
  | none => rfl
  | some c =>
    have hc := IsMark.not_isWordChar (List.mem_of_head? hm)
    rw [isWordChar, Bool.or_eq_false_iff] at hc
    exact hc.1

/-- What begins at a place and runs up to where no name can go on is determined by the place. -/
theorem stands_unique (hw : Stands s w q j) (hv : Stands s v q k) (hwc : ∀ c ∈ w, isNameChar c)
    (hvc : ∀ c ∈ v, isNameChar c) (hj : NameEnds s j) (hk : NameEnds s k) : w = v :=
  (hw.takeWhile_eq hwc hj).symm.trans (hv.takeWhile_eq hvc hk)

theorem keyword_unique (h : Keyword s word i j) (h' : Keyword s word' i k) : word = word' := by
  obtain ⟨h, -, ha⟩ := keyword_iff.mp h
  obtain ⟨h', -, ha'⟩ := keyword_iff.mp h'
  exact stands_unique h h' IsKeyword.isNameChar IsKeyword.isNameChar (nameEnds_of_wordAfter ha)
    (nameEnds_of_wordAfter ha')

theorem Name.not_keyword (h : Name s x i j) (hj : NameEnds s j) (hw : word ∈ reserved) :
    ¬ Keyword s word i k := by
  intro h'
  obtain ⟨hs, -, ha⟩ := keyword_iff.mp h'
  have he := stands_unique h.stands hs h.2.2.1 IsKeyword.isNameChar hj (nameEnds_of_wordAfter ha)
  exact h.2.2.2 (he ▸ hw)

theorem fresh_zero (s : List Char) : Fresh s 0 := .inl (by simp [wordBefore])

theorem Token.fresh (h : Token s mark i j) : Fresh s j := by
  refine .inl ?_
  have hne : mark ≠ [] := Solid.ne_nil
  rw [wordBefore, (token_iff.mp h).getLast_eq hne, List.getLast?_eq_some_getLast hne]
  exact IsMark.not_isWordChar (List.getLast_mem hne)

theorem Keyword.fresh (h : Keyword s w i j) : Fresh s j := by
  obtain ⟨q, -, -, -, ha⟩ := h
  exact .inr ha

theorem wordBefore_of_fresh (h : Fresh s i) (ha : wordAfter s (skip s i)) :
    wordBefore s (skip s i) = false := by
  rcases Nat.lt_or_eq_of_le (le_skip s i) with hlt | he
  · exact wordBefore_skip hlt
  · rw [← he] at ha ⊢
    rcases h with h | h
    · exact h
    · rw [h] at ha
      cases ha

theorem Stands.wordBefore (h : Stands s w i j) (hne : w ≠ []) (hc : ∀ c ∈ w, isNameChar c) :
    wordBefore s j := by
  rw [Grammar.wordBefore, h.getLast_eq hne, List.getLast?_eq_some_getLast hne]
  exact isWordChar_of_isNameChar (hc _ (List.getLast_mem hne))

theorem Name.wordBefore (h : Name s x i j) : wordBefore s j :=
  h.stands.wordBefore h.2.solid.ne_nil h.2.2.1

theorem Numeral.wordBefore (h : Numeral s digits i j) : wordBefore s j :=
  h.stands.wordBefore h.2.1 fun c hc ↦ isNameChar_of_isDigit (h.2.2 c hc)

end TypedLet.Grammar

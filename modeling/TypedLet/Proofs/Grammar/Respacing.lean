import TypedLet.Proofs.Grammar.Lockstep
import TypedLet.Proofs.Grammar.Spacing

namespace TypedLet.Grammar

open Text

variable {s s' w : List Char} {text text' : String} {p : Char → Bool}
variable {i i' j q q' : Nat}

theorem ahead_of_stands (h : Stands s w i j) : ahead s i = w.countP isVisible + ahead s j := by
  rw [ahead, h.drop_eq, List.countP_append]
  rfl

theorem ahead_of_blank (h : Blank s i j) : ahead s i = ahead s j := by
  obtain ⟨w, hs, hw⟩ := h
  have h0 : w.countP isVisible = 0 := by
    rw [List.countP_eq_zero]
    simpa [isVisible] using hw
  rw [ahead_of_stands hs, h0, Nat.zero_add]

theorem ahead_skip (s : List Char) (i : Nat) : ahead s (skip s i) = ahead s i :=
  (ahead_of_blank (blank_skip s i)).symm

theorem ahead_le (s : List Char) (i : Nat) : ahead s i ≤ (s.drop i).length :=
  List.countP_le_length

/-- The last glyph behind a place stands right in front of it, unless there is a gap. -/
theorem wordBefore_eq (s : List Char) (i : Nat) :
    wordBefore s i = (!gapAfter true (s.take i) &&
      (glyphs true (s.take i)).getLast?.any fun m ↦ isWordChar m.2) := by
  rw [wordBefore]
  rcases List.eq_nil_or_concat (s.take i) with h | ⟨t, c, h⟩
  · rw [h]
    rfl
  · rw [h, List.concat_eq_append, glyphs_append, List.getLast?_append]
    cases hc : isLayout c with
    | true => simp [gapAfter, hc, not_isWordChar_of_isLayout hc]
    | false => simp [gapAfter, glyphs, hc]

theorem isVisible_of_isWordChar {c : Char} (h : isWordChar c) : isVisible c := by
  rw [isVisible, not_isLayout_of_isWordChar h, Bool.not_false]

section

variable (h : glyphs true s = glyphs true s') (ha : ahead s i = ahead s' i')

include h ha

theorem glyphs_split : glyphs true (s.take i) = glyphs true (s'.take i') ∧
    glyphs (gapAfter true (s.take i)) (s.drop i) =
      glyphs (gapAfter true (s'.take i')) (s'.drop i') := by
  rw [← List.take_append_drop i s, ← List.take_append_drop i' s', glyphs_append, glyphs_append] at h
  apply List.append_inj' h
  rw [length_glyphs, length_glyphs]
  exact ha

theorem headWord_skip_eq : headWord (s.drop (skip s i)) = headWord (s'.drop (skip s' i')) := by
  rw [← ahead_skip s, ← ahead_skip s'] at ha
  exact headWord_congr (head_skip s i) (head_skip s' i') (glyphs_split h ha).2

theorem isEmpty_skip_eq : (s.drop (skip s i)).isEmpty = (s'.drop (skip s' i')).isEmpty := by
  rw [Bool.eq_iff_iff, List.isEmpty_iff, List.isEmpty_iff, ← headWord_eq_nil_iff (head_skip s i),
    ← headWord_eq_nil_iff (head_skip s' i'), headWord_skip_eq h ha]

/-- The next visible character, which both texts have, tells whether there is a gap before it. -/
theorem gapAfter_skip_eq (hne : s.drop (skip s i) ≠ []) :
    gapAfter true (s.take (skip s i)) = gapAfter true (s'.take (skip s' i')) := by
  rw [← ahead_skip s, ← ahead_skip s'] at ha
  exact gap_congr (head_skip s i) (head_skip s' i') hne (glyphs_split h ha).2

theorem wordBefore_skip_eq (hne : s.drop (skip s i) ≠ []) :
    wordBefore s (skip s i) = wordBefore s' (skip s' i') := by
  have hgap := gapAfter_skip_eq h ha hne
  rw [← ahead_skip s, ← ahead_skip s'] at ha
  rw [wordBefore_eq, wordBefore_eq, hgap, (glyphs_split h ha).1]

end

theorem wordAfter_eq (he : headWord (s.drop q) = headWord (s'.drop q'))
    (hw : ∀ c ∈ w, isVisible c) (h : w <+: s.drop q) (h' : w <+: s'.drop q') :
    wordAfter s (q + w.length) = wordAfter s' (q' + w.length) := by
  have hc : ∀ c, isWordChar c → isVisible c := fun _ ↦ isVisible_of_isWordChar
  have hs : Stands s w q _ := ⟨h, rfl⟩
  have hs' : Stands s' w q' _ := ⟨h', rfl⟩
  rw [hs.drop_eq, hs'.drop_eq, headWord_append hw, headWord_append hw] at he
  rw [wordAfter, wordAfter, ← head_headWord hc, ← head_headWord hc (s'.drop _),
    List.append_cancel_left he]

/-- Two texts side by side: places are abreast with as many visible characters ahead, and so are
the ends of stretches that are taken for the same. -/
def respacing (text text' : String) : Pace where
  Abreast c c' := ∃ i i', c = .inText text i ∧ c' = .inText text' i' ∧
    ahead text.toList i = ahead text'.toList i'
  ahead c := c.rest.countP isVisible
  Fault _ _ := True
  Over a a' := ∃ i i' j j' : Nat, a = ⟨text, i, j⟩ ∧ a' = ⟨text', i', j'⟩ ∧
    ahead text.toList i = ahead text'.toList i' ∧ ahead text.toList j = ahead text'.toList j'
  Halts _ := False

variable {α : Type} {a : α} {limit m : Nat}

theorem ahead_anti (s : List Char) (h : i ≤ j) : ahead s j ≤ ahead s i := by
  obtain ⟨k, rfl⟩ := Nat.exists_eq_add_of_le h
  rw [ahead, ahead, ← List.drop_drop]
  exact (List.drop_sublist k _).countP_le

theorem ahead_min (s : List Char) (i j : Nat) : ahead s (min i j) = max (ahead s i) (ahead s j) := by
  rcases Nat.le_total i j with h | h
  · rw [Nat.min_eq_left h, Nat.max_eq_left (ahead_anti s h)]
  · rw [Nat.min_eq_right h, Nat.max_eq_right (ahead_anti s h)]

theorem ahead_max (s : List Char) (i j : Nat) : ahead s (max i j) = min (ahead s i) (ahead s j) := by
  rcases Nat.le_total i j with h | h
  · rw [Nat.max_eq_right h, Nat.min_eq_right (ahead_anti s h)]
  · rw [Nat.max_eq_left h, Nat.min_eq_left (ahead_anti s h)]

theorem ahead_add_length (hw : ∀ c ∈ w, isVisible c) (h : w <+: s.drop (skip s i)) :
    ahead s (skip s i + w.length) + w.length = ahead s i := by
  have hs := ahead_of_stands (s := s) ⟨h, rfl⟩
  rw [ahead_skip, List.countP_eq_length.mpr hw] at hs
  omega

theorem parsed_inStep (hne : w ≠ []) (hw : ∀ c ∈ w, isVisible c)
    (ha : ahead text.toList i = ahead text'.toList i')
    (h : w <+: text.toList.drop (skip text.toList i))
    (h' : w <+: text'.toList.drop (skip text'.toList i')) :
    Outcome.InStep (respacing text text') 1 (ahead text.toList i) Eq
      (.parsed a (.inText text (skip text.toList i + w.length)))
      (.parsed a (.inText text' (skip text'.toList i' + w.length))) := by
  have hs := ahead_add_length hw h
  have hs' := ahead_add_length hw h'
  have hpos := List.length_pos_iff.mpr hne
  apply Outcome.InStep.parsed rfl
  · exact ⟨_, _, rfl, rfl, by omega⟩
  · change ahead _ _ + 1 ≤ _
    omega

section

variable (h : glyphs true text.toList = glyphs true text'.toList)

include h

theorem symbol_inStep (mark : List Char) (m : Nat) [hv : Visible mark] :
    (symbol mark).InStep (respacing text text') m 1 Eq (symbol mark) := by
  rintro _ _ ⟨i, i', rfl, rfl, ha⟩ -
  have hw : ∀ c ∈ mark, isVisible c := by
    intro c hc
    rw [isVisible, isLayout_eq_false (hv.not_isBlank c hc), Bool.not_false]
  have he := headWord_skip_eq h ha
  rw [symbol_inText, symbol_inText]
  split
  next hm =>
    have hm' := hm
    rw [← prefix_headWord_iff hw, he, prefix_headWord_iff hw] at hm'
    rw [if_pos hm']
    exact parsed_inStep hv.ne_nil hw ha hm hm'
  next hm =>
    rw [← prefix_headWord_iff hw, he, prefix_headWord_iff hw] at hm
    rw [if_neg hm]
    exact .failed trivial

theorem keyword_inStep (word : List Char) (m : Nat) [IsKeyword word] :
    (keyword word).InStep (respacing text text') m 1 Eq (keyword word) := by
  rintro _ _ ⟨i, i', rfl, rfl, ha⟩ -
  have hne : word ≠ [] := IsKeyword.ne_nil
  have hw : ∀ c ∈ word, isVisible c := fun c hc ↦
    isVisible_of_isWordChar (isWordChar_of_isNameChar (IsKeyword.isNameChar c hc))
  have he := headWord_skip_eq h ha
  rw [keyword_inText, keyword_inText]
  split
  next hm =>
    have hm' := hm
    rw [← prefix_headWord_iff hw, he, prefix_headWord_iff hw] at hm'
    rw [if_pos hm', ← wordBefore_skip_eq h ha (hm.ne_nil hne), ← wordAfter_eq he hw hm hm']
    split
    · exact .failed trivial
    · split
      · exact .failed trivial
      · exact parsed_inStep hne hw ha hm hm'
  next hm =>
    rw [← prefix_headWord_iff hw, he, prefix_headWord_iff hw] at hm
    rw [if_neg hm]
    exact .failed trivial

theorem name_inStep : name.InStep (respacing text text') m 1 Eq name := by
  rintro _ _ ⟨i, i', rfl, rfl, ha⟩ -
  have hreserved : (reserved.any fun word ↦ (keyword word (.inText text i)).isParsed) =
      reserved.any fun word ↦ (keyword word (.inText text' i')).isParsed := by
    rw [Bool.eq_iff_iff, List.any_eq_true, List.any_eq_true]
    apply exists_congr
    intro word
    apply and_congr_right
    intro hw
    have := IsKeyword.of_reserved hw
    have ho := keyword_inStep h word _ ⟨i, i', rfl, rfl, ha⟩ (Nat.lt_succ_self _)
    rw [ho.isParsed_eq fun _ ↦ id]
  have he := headWord_skip_eq h ha
  have hc : ∀ c, isNameChar c → isVisible c := fun c hc ↦
    isVisible_of_isWordChar (isWordChar_of_isNameChar hc)
  have hrun : (text.toList.drop (skip text.toList i)).takeWhile isNameChar =
      (text'.toList.drop (skip text'.toList i')).takeWhile isNameChar := by
    rw [← takeWhile_headWord hc, he, takeWhile_headWord hc]
  have hstart : (text.toList.drop (skip text.toList i)).head?.any isNameStart =
      (text'.toList.drop (skip text'.toList i')).head?.any isNameStart := by
    have hc' : ∀ c, isNameStart c → isVisible c := fun c h ↦ hc c (isNameChar_of_isNameStart h)
    rw [← head_headWord hc', he, head_headWord hc']
  have hprefix := List.takeWhile_prefix isNameChar (l := text.toList.drop (skip text.toList i))
  rw [name_inText, name_inText, hreserved, hstart, hrun]
  rw [hrun] at hprefix
  split
  · exact .failed trivial
  · split
    next hs =>
      apply parsed_inStep _ _ ha hprefix (List.takeWhile_prefix _)
      · exact takeWhile_ne_nil (head_any_mono (fun _ ↦ isNameChar_of_isNameStart) hs)
      · exact fun c h ↦ hc c (List.mem_takeWhile_imp h)
    · exact .failed trivial

theorem numeral_inStep : (numeral limit).InStep (respacing text text') m 1 Eq (numeral limit) := by
  rintro _ _ ⟨i, i', rfl, rfl, ha⟩ -
  have he := headWord_skip_eq h ha
  have hc : ∀ c : Char, c.isDigit → isVisible c := fun c hc ↦
    isVisible_of_isWordChar (isWordChar_of_isNameChar (isNameChar_of_isDigit hc))
  have hrun : (text.toList.drop (skip text.toList i)).takeWhile Char.isDigit =
      (text'.toList.drop (skip text'.toList i')).takeWhile Char.isDigit := by
    rw [← takeWhile_headWord hc, he, takeWhile_headWord hc]
  have hprefix := List.takeWhile_prefix Char.isDigit (l := text.toList.drop (skip text.toList i))
  rw [numeral_inText, numeral_inText, hrun]
  rw [hrun] at hprefix
  dsimp only
  split
  · exact .failed trivial
  next hne =>
    rw [List.isEmpty_iff] at hne
    have hw : ∀ c ∈ (text'.toList.drop (skip text'.toList i')).takeWhile Char.isDigit, isVisible c :=
      fun c h ↦ hc c (List.mem_takeWhile_imp h)
    split
    · have hs := ahead_add_length hw hprefix
      have hpos := List.length_pos_iff.mpr hne
      exact .overlong (show 0 < ahead _ _ by omega)
    · exact parsed_inStep hne hw ha hprefix (List.takeWhile_prefix _)

theorem respacing_steady (limit : Nat) : (respacing text text').Steady limit where
  skip := by
    rintro _ _ ⟨i, i', rfl, rfl, ha⟩
    rw [Cursor.skipLayout_inText, Cursor.skipLayout_inText]
    exact ⟨_, _, rfl, rfl, by rw [ahead_skip, ahead_skip, ha]⟩
  ahead_skip := by
    rintro _ _ ⟨i, i', rfl, rfl, ha⟩
    rw [Cursor.skipLayout_inText]
    exact Nat.le_of_eq (ahead_skip _ _)
  ahead_le := by
    rintro _ _ ⟨i, i', rfl, rfl, ha⟩
    exact ⟨ahead_le _ _, Nat.le_trans (Nat.le_of_eq ha) (ahead_le _ _)⟩
  isEmpty := by
    rintro _ _ ⟨i, i', rfl, rfl, ha⟩
    rw [Cursor.skipLayout_inText, Cursor.skipLayout_inText]
    exact isEmpty_skip_eq h ha
  fault _ := trivial
  fault_zero := trivial
  fault_max _ _ := trivial
  spanTo := by
    rintro _ _ _ _ ⟨i, i', rfl, rfl, ha⟩ ⟨j, j', rfl, rfl, ha'⟩
    rw [Cursor.skipLayout_inText, Cursor.skipLayout_inText]
    refine ⟨skip _ i, skip _ i', j, j', rfl, rfl, ?_, ha'⟩
    rw [ahead_skip, ahead_skip, ha]
  merge := by
    rintro _ _ _ _ ⟨i, i', j, j', rfl, rfl, hi, hj⟩ ⟨k, k', l, l', rfl, rfl, hk, hl⟩
    refine ⟨min i k, min i' k', max j l, max j' l', ?_, ?_, ?_, ?_⟩
    · simp only [Span.merge, Span.mk.injEq, true_and]
      omega
    · simp only [Span.merge, Span.mk.injEq, true_and]
      omega
    · rw [ahead_min, ahead_min, hi, hk]
    · rw [ahead_max, ahead_max, hj, hl]
  symbol mark m _ _ := symbol_inStep h mark m
  keyword word m _ := keyword_inStep h word m
  name _ := name_inStep h
  numeral _ := numeral_inStep h

end

end TypedLet.Grammar

import TypedLet.Proofs.Grammar.Boundary
import TypedLet.Proofs.Grammar.Rule

namespace TypedLet.Grammar

/-- Ahead is a character that no rule reads: a reserved word in front of it passes for a name. -/
def Cursor.Stuck (c : Cursor) : Prop := c.rest.head? = some '$'

variable {text : String} {mark word digits w : List Char} {x : String} {c c' : Cursor}
variable {u : Unit} {limit i j n : Nat}

theorem symbol_inText (mark : List Char) (text : String) (i : Nat) :
    symbol mark (.inText text i) = if mark <+: text.toList.drop (skip text.toList i) then
      .parsed () (.inText text (skip text.toList i + mark.length))
      else .failed (skip text.toList i) := by
  simp only [symbol, Cursor.skipLayout_inText, Cursor.advance_inText, List.isPrefixOf_iff_prefix]
  rfl

theorem keyword_inText (word : List Char) (text : String) (i : Nat) :
    keyword word (.inText text i) =
      if word <+: text.toList.drop (skip text.toList i) then
        if wordBefore text.toList (skip text.toList i) then .failed (skip text.toList i - 1)
        else if wordAfter text.toList (skip text.toList i + word.length) then
          .failed (skip text.toList i + word.length)
        else .parsed () (.inText text (skip text.toList i + word.length))
      else .failed (skip text.toList i) := by
  simp only [keyword, Cursor.skipLayout_inText, Cursor.advance_inText, List.isPrefixOf_iff_prefix]
  simp only [Cursor.inText, List.drop_drop]
  rfl

section

variable [IsMark mark]

theorem symbol_parsed (h : Token text.toList mark i j) :
    symbol mark (.inText text i) = .parsed () (.inText text j) := by
  obtain ⟨hp, rfl⟩ := token_iff.mp h
  rw [symbol_inText, if_pos hp]

theorem symbol_sound (h : symbol mark (.inText text i) = .parsed u c) :
    ∃ j, Token text.toList mark i j ∧ c = .inText text j := by
  rw [symbol_inText] at h
  split at h <;> cases h
  next hp => exact ⟨_, token_iff.mpr ⟨hp, rfl⟩, rfl⟩

theorem symbol_fails (h : ∀ j, ¬ Token text.toList mark i j) :
    (symbol mark).Fails (.inText text i) := by
  rw [Rule.Fails, symbol_inText, if_neg (fun hp ↦ h _ (token_iff.mpr ⟨hp, rfl⟩))]
  exact ⟨_, rfl⟩

end

section

variable [IsKeyword word]

theorem keyword_parsed (h : Keyword text.toList word i j) :
    keyword word (.inText text i) = .parsed () (.inText text j) := by
  obtain ⟨⟨hp, rfl⟩, hb, ha⟩ := keyword_iff.mp h
  rw [keyword_inText, if_pos hp, hb, ha]
  rfl

theorem keyword_sound (h : keyword word (.inText text i) = .parsed u c) :
    ∃ j, Keyword text.toList word i j ∧ c = .inText text j := by
  rw [keyword_inText] at h
  split at h
  next hp =>
    split at h
    · cases h
    next hb =>
      split at h <;> cases h
      next ha =>
        exact ⟨_, keyword_iff.mpr ⟨⟨hp, rfl⟩, by simpa using hb, by simpa using ha⟩, rfl⟩
  · cases h

theorem keyword_fails (h : ∀ j, ¬ Keyword text.toList word i j) :
    (keyword word).Fails (.inText text i) := by
  cases hk : keyword word (.inText text i) with
  | parsed u c =>
    obtain ⟨j, hj, -⟩ := keyword_sound hk
    exact absurd hj (h j)
  | failed pos => exact ⟨pos, hk⟩
  | overlong n =>
    rw [keyword_inText] at hk
    split at hk
    · split at hk
      · cases hk
      · split at hk <;> cases hk
    · cases hk

end

theorem Cursor.Stuck.skipLayout_eq (h : c.Stuck) : c.skipLayout = c := by
  unfold Stuck at h
  cases hr : c.rest with
  | nil => rw [hr] at h; cases h
  | cons x xs =>
    rw [hr] at h
    cases h
    rw [skipLayout, hr]
    exact c.advance_zero

theorem Cursor.Stuck.not_prefix (h : c.Stuck) (hw : w ≠ []) (hd : '$' ∉ w) : ¬ w <+: c.rest := by
  intro h
  obtain ⟨v, hv⟩ := h
  unfold Stuck at h
  cases w with
  | nil => exact hw rfl
  | cons x xs =>
    rw [← hv] at h
    cases h
    exact hd List.mem_cons_self

theorem symbol_stuck [IsMark mark] (h : c.Stuck) : symbol mark c ≠ .parsed u c' := by
  intro hp
  have hd : '$' ∉ mark := fun hd ↦ absurd (IsMark.not_isWordChar hd) (by decide)
  simp only [symbol, h.skipLayout_eq, List.isPrefixOf_iff_prefix] at hp
  rw [if_neg (h.not_prefix Solid.ne_nil hd)] at hp
  cases hp

theorem keyword_stuck [IsKeyword word] (h : c.Stuck) : keyword word c ≠ .parsed u c' := by
  intro hp
  have hd : '$' ∉ word := fun hd ↦ absurd (IsKeyword.isNameChar '$' hd) (by decide)
  simp only [keyword, h.skipLayout_eq, List.isPrefixOf_iff_prefix] at hp
  rw [if_neg (h.not_prefix Solid.ne_nil hd)] at hp
  cases hp

theorem name_inText (text : String) (i : Nat) :
    name (.inText text i) =
      if reserved.any fun word ↦ (keyword word (.inText text i)).isParsed then .failed i
      else if (text.toList.drop (skip text.toList i)).head?.any isNameStart then
        .parsed (String.ofList ((text.toList.drop (skip text.toList i)).takeWhile isNameChar))
          (.inText text (skip text.toList i +
            ((text.toList.drop (skip text.toList i)).takeWhile isNameChar).length))
      else .failed (skip text.toList i) := by
  simp only [name, Cursor.skipLayout_inText, Cursor.advance_inText]
  rfl

theorem name_parsed (h : Name text.toList x i j) (hj : NameEnds text.toList j) :
    name (.inText text i) = .parsed x (.inText text j) := by
  have hr : (reserved.any fun word ↦ (keyword word (.inText text i)).isParsed) = false := by
    rw [List.any_eq_false]
    intro word hw
    have := IsKeyword.of_reserved hw
    obtain ⟨pos, hp⟩ := keyword_fails fun k ↦ h.not_keyword hj hw
    simp [hp, Outcome.isParsed]
  have hs := h.stands
  have hh : (text.toList.drop (skip text.toList i)).head?.any isNameStart := by
    rw [hs.head_eq h.2.solid.ne_nil]
    exact h.2.1
  rw [name_inText, hr, hh, hs.takeWhile_eq h.2.2.1 hj, ← hs.2]
  simp

/-- What the rule for names takes is the longest run of characters of a name. -/
theorem name_run (h : name (.inText text i) = .parsed x c) :
    (∀ word ∈ reserved, (keyword word (.inText text i)).isParsed = false) ∧
    (text.toList.drop (skip text.toList i)).head?.any isNameStart ∧
    ∃ j, Stands text.toList x.toList (skip text.toList i) j ∧ (∀ c ∈ x.toList, isNameChar c) ∧
      NameEnds text.toList j ∧ c = .inText text j := by
  rw [name_inText] at h
  split at h
  · cases h
  next hr =>
    split at h <;> cases h
    next hh =>
      refine ⟨fun word hw ↦ ?_, hh, _, ?_, ?_, head_drop_takeWhile _ _ _, rfl⟩
      · simpa using fun hp ↦ hr (List.any_eq_true.mpr ⟨word, hw, hp⟩)
      · rw [String.toList_ofList]
        exact stands_takeWhile _ _ _
      · rw [String.toList_ofList]
        exact fun c hc ↦ List.mem_takeWhile_imp hc

theorem Stands.head_isNameStart {s : List Char} (h : Stands s w i j)
    (hh : (s.drop i).head?.any isNameStart) (hj : NameEnds s j) : w.head?.any isNameStart := by
  have hne : w ≠ [] := by
    rintro rfl
    obtain ⟨-, rfl⟩ := h
    rw [NameEnds, head_any_mono (fun c ↦ isNameChar_of_isNameStart) hh] at hj
    cases hj
  rwa [← h.head_eq hne]

/-- A name that is read is a name of the grammar, except that a reserved word passes in front of
the character `$`. -/
theorem name_sound (h : name (.inText text i) = .parsed x c)
    (hi : Fresh text.toList i) :
    c.Stuck ∨ ∃ j, Name text.toList x i j ∧ c = .inText text j := by
  obtain ⟨hr, hh, j, hs, hc, hj, rfl⟩ := name_run h
  by_cases hstuck : (Cursor.inText text j).Stuck
  · exact .inl hstuck
  refine .inr ⟨j, ⟨hs.token, ?_, hc, fun hres ↦ ?_⟩, rfl⟩
  · exact hs.head_isNameStart hh hj
  · have hb := wordBefore_of_fresh hi
      (head_any_mono (fun c hc ↦ isWordChar_of_isNameChar (isNameChar_of_isNameStart hc)) hh)
    have ha : wordAfter text.toList j = false := by
      unfold wordAfter
      unfold NameEnds at hj
      cases hd : (text.toList.drop j).head? with
      | none => rfl
      | some c =>
        rw [hd, Option.any_some] at hj
        have hc : c ≠ '$' := by
          rintro rfl
          exact hstuck hd
        simp [isWordChar, hj, hc]
    have := IsKeyword.of_reserved hres
    have hp := keyword_parsed (keyword_iff.mpr ⟨hs, hb, ha⟩)
    have hr := hr _ hres
    rw [hp] at hr
    cases hr

theorem name_fails (h : (text.toList.drop (skip text.toList i)).head?.any isNameStart = false) :
    name.Fails (.inText text i) := by
  rw [Rule.Fails, name_inText, h]
  split <;> exact ⟨_, rfl⟩

theorem name_fails_of_keyword [IsKeyword word] (hw : word ∈ reserved) (h : Keyword text.toList word i j) :
    name.Fails (.inText text i) := by
  have hp := keyword_parsed h
  have hr : (reserved.any fun word ↦ (keyword word (.inText text i)).isParsed) = true :=
    List.any_eq_true.mpr ⟨word, hw, by rw [hp]; rfl⟩
  rw [Rule.Fails, name_inText, hr]
  exact ⟨_, rfl⟩

theorem numeral_inText (limit : Nat) (text : String) (i : Nat) :
    numeral limit (.inText text i) =
      let run := (text.toList.drop (skip text.toList i)).takeWhile Char.isDigit
      if run.isEmpty then .failed (skip text.toList i)
      else if limit < run.length then .overlong run.length
      else .parsed (Text.numeralValue run) (.inText text (skip text.toList i + run.length)) := by
  simp only [numeral, Cursor.skipLayout_inText, Cursor.advance_inText]
  rfl

theorem numeral_parsed (h : Numeral text.toList digits i j) (hj : NameEnds text.toList j)
    (hl : digits.length ≤ limit) :
    numeral limit (.inText text i) = .parsed (Text.numeralValue digits) (.inText text j) := by
  have hs := h.stands
  have hend : (text.toList.drop j).head?.any Char.isDigit = false := by
    by_contra hc
    rw [NameEnds, head_any_mono (fun c ↦ isNameChar_of_isDigit) (by simpa using hc)] at hj
    cases hj
  rw [numeral_inText, hs.takeWhile_eq h.2.2 hend]
  simp [h.2.1, Nat.not_lt.mpr hl, hs.2]

theorem numeral_sound
    (h : numeral limit (.inText text i) = .parsed n c) :
    ∃ digits j, Numeral text.toList digits i j ∧ digits.length ≤ limit ∧
      n = Text.numeralValue digits ∧ c = .inText text j := by
  rw [numeral_inText] at h
  dsimp only at h
  split at h
  · cases h
  next hne =>
    split at h <;> cases h
    next hl =>
      exact ⟨_, _, ⟨(stands_takeWhile _ _ _).token, by simpa using hne,
        fun c hc ↦ List.mem_takeWhile_imp hc⟩, Nat.not_lt.mp hl, rfl, rfl⟩

theorem numeral_fails
    (h : (text.toList.drop (skip text.toList i)).head?.any Char.isDigit = false) :
    (numeral limit).Fails (.inText text i) := by
  have hrun : (text.toList.drop (skip text.toList i)).takeWhile Char.isDigit = [] := by
    cases hd : text.toList.drop (skip text.toList i) with
    | nil => rfl
    | cons c r =>
      rw [hd] at h
      simp only [List.head?_cons, Option.any_some] at h
      simp [h]
  rw [Rule.Fails, numeral_inText, hrun]
  exact ⟨_, rfl⟩

end TypedLet.Grammar

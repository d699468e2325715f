import Mathlib.Data.List.Perm.Basic
import TypedLet.Grammar.Expression
import TypedLet.Proofs.Grammar.Rule
import TypedLet.Proofs.Grammar.Terminal

namespace TypedLet.Grammar

open Rule

variable {α β γ : Type} {r : Rule α} {r' : Rule β} {rs rs' : List (Rule α)} {c : Cursor}

/-- Where the letters end that are ahead, behind the layout. -/
def Cursor.lettersEnd (c : Cursor) : Nat :=
  c.skipLayout.pos + (c.skipLayout.rest.takeWhile Char.isAlpha).length

theorem Cursor.pos_le_skipLayout (c : Cursor) : c.pos ≤ c.skipLayout.pos := Nat.le_add_right _ _

theorem Cursor.pos_le_lettersEnd (c : Cursor) : c.skipLayout.pos ≤ c.lettersEnd :=
  Nat.le_add_right _ _

/-- The rule fails behind the first letters at the latest, as a keyword does that runs into another
character. -/
def Rule.FailsEarly (r : Rule α) (c : Cursor) : Prop := ∃ i ≤ c.lettersEnd, r c = .failed i

/-- Wherever one of the rules reads on, the other one fails early. -/
def Rule.Excludes (r : Rule α) (r' : Rule β) : Prop := ∀ c, r.FailsEarly c ∨ r'.FailsEarly c

/-- The rule reads on only where something like `P` is ahead, behind the layout. -/
def Rule.Needs (r : Rule α) (P : List Char → Prop) : Prop :=
  ∀ c, r.FailsEarly c ∨ P c.skipLayout.rest

namespace Rule

variable {P Q : List Char → Prop} {mark word word' : List Char}

namespace FailsEarly

theorem fails (h : r.FailsEarly c) : r.Fails c := by
  obtain ⟨i, -, hr⟩ := h
  exact ⟨i, hr⟩

theorem le {i : Nat} (h : r.FailsEarly c) (hr : r c = .failed i) : i ≤ c.lettersEnd := by
  obtain ⟨j, hj, hrj⟩ := h
  cases hr.symm.trans hrj
  exact hj

theorem bind (h : r.FailsEarly c) (f : α → Rule β) : (r >>= f).FailsEarly c := by
  obtain ⟨i, hi, hr⟩ := h
  exact ⟨i, hi, by rw [bind_apply, hr]⟩

theorem located (h : r.FailsEarly c) : (located r).FailsEarly c := by
  obtain ⟨i, hi, hr⟩ := h
  exact ⟨i, hi, by rw [Rule.located, hr]⟩

theorem firstOf (h : ∀ r ∈ rs, r.FailsEarly c) : (firstOf rs).FailsEarly c := by
  induction rs with
  | nil => exact ⟨0, Nat.zero_le _, rfl⟩
  | cons r rs ih =>
    obtain ⟨i, hi, hr⟩ := h r List.mem_cons_self
    obtain ⟨j, hj, hrs⟩ := ih fun s hs ↦ h s (List.mem_cons_of_mem r hs)
    exact ⟨max i j, Nat.max_le.mpr ⟨hi, hj⟩, by rw [Rule.firstOf, hr, hrs]; rfl⟩

end FailsEarly

theorem Needs.bind (h : r.Needs P) (f : α → Rule β) : (r >>= f).Needs P :=
  fun c ↦ (h c).imp_left (·.bind f)

theorem Needs.located (h : r.Needs P) : (located r).Needs P := fun c ↦ (h c).imp_left (·.located)

theorem Needs.excludes (h : r.Needs P) (h' : r'.Needs Q) (hPQ : ∀ s, P s → ¬ Q s) :
    r.Excludes r' := by
  intro c
  rcases h c with hr | hP
  · exact .inl hr
  · exact .inr ((h' c).resolve_right (hPQ _ hP))

namespace Excludes

theorem symm (h : r.Excludes r') : r'.Excludes r := fun c ↦ (h c).symm

theorem bind (h : r.Excludes r') (f : α → Rule γ) : (r >>= f).Excludes r' :=
  fun c ↦ (h c).imp_left (·.bind f)

theorem located (h : r.Excludes r') : (located r).Excludes r' :=
  fun c ↦ (h c).imp_left (·.located)

theorem firstOf (h : ∀ r ∈ rs, r.Excludes r') : (firstOf rs).Excludes r' := by
  intro c
  by_cases hr' : r'.FailsEarly c
  · exact .inr hr'
  · exact .inl (.firstOf fun r hr ↦ (h r hr c).resolve_right hr')

end Excludes

theorem symbol_eq_parsed (h : mark <+: c.skipLayout.rest) :
    symbol mark c = .parsed () (c.skipLayout.advance mark.length) := by
  rw [symbol, if_pos (List.isPrefixOf_iff_prefix.mpr h)]

theorem symbol_eq_failed (h : ¬ mark <+: c.skipLayout.rest) :
    symbol mark c = .failed c.skipLayout.pos := by
  rw [symbol, if_neg (mt List.isPrefixOf_iff_prefix.mp h)]

theorem keyword_eq_failed (h : ¬ word <+: c.skipLayout.rest) :
    keyword word c = .failed c.skipLayout.pos := by
  rw [keyword, if_neg (mt List.isPrefixOf_iff_prefix.mp h)]

theorem symbol_needs (mark : List Char) : (symbol mark).Needs (mark <+: ·) := by
  intro c
  by_cases h : mark <+: c.skipLayout.rest
  · exact .inr h
  · exact .inl ⟨_, c.pos_le_lettersEnd, symbol_eq_failed h⟩

theorem keyword_needs (word : List Char) : (keyword word).Needs (word <+: ·) := by
  intro c
  by_cases h : word <+: c.skipLayout.rest
  · exact .inr h
  · exact .inl ⟨_, c.pos_le_lettersEnd, keyword_eq_failed h⟩

theorem name_needs : name.Needs (·.head?.any isNameStart) := by
  intro c
  have hc := c.pos_le_lettersEnd
  rw [FailsEarly, name]
  split
  · exact .inl ⟨_, Nat.le_trans c.pos_le_skipLayout hc, rfl⟩
  · dsimp only
    split
    next h => exact .inr h
    · exact .inl ⟨_, hc, rfl⟩

theorem numeral_needs (limit : Nat) : (numeral limit).Needs (·.head?.any Char.isDigit) := by
  intro c
  have hc := c.pos_le_lettersEnd
  rw [FailsEarly, numeral]
  cases h : c.skipLayout.rest with
  | nil => exact .inl ⟨_, hc, by simp⟩
  | cons x s =>
    by_cases hx : x.isDigit
    · exact .inr hx
    · exact .inl ⟨_, hc, by simp [hx]⟩

/-- Words that do not begin alike cannot stand at one place. -/
theorem Needs.excludes_of_words (h : r.Needs (word <+: ·)) (h' : r'.Needs (word' <+: ·))
    (hw : ¬ word <+: word') (hw' : ¬ word' <+: word) : r.Excludes r' :=
  h.excludes h' fun _ hs hs' ↦ (List.prefix_or_prefix_of_prefix hs hs').elim hw hw'

theorem Needs.excludes_of_head {p : Char → Bool} (h : r.Needs (word <+: ·))
    (h' : r'.Needs (·.head?.any p)) (hw : word.head?.any fun x ↦ !p x) : r.Excludes r' := by
  refine h.excludes h' fun s hs hp ↦ ?_
  obtain ⟨t, rfl⟩ := hs
  cases word with
  | nil => cases hw
  | cons x word => simp_all

theorem keyword_failsEarly_or_isParsed (word : List Char) [IsKeyword word] (c : Cursor) :
    (keyword word).FailsEarly c ∨ (keyword word c).isParsed := by
  have hc := c.pos_le_lettersEnd
  rw [FailsEarly, keyword]
  split
  next hw =>
    obtain ⟨t, ht⟩ := List.isPrefixOf_iff_prefix.mp hw
    have hletters : c.skipLayout.pos + word.length ≤ c.lettersEnd := by
      rw [Cursor.lettersEnd, ← ht, List.takeWhile_append_of_pos IsKeyword.isAlpha,
        List.length_append]
      omega
    split
    · exact .inl ⟨_, by omega, rfl⟩
    · split
      · exact .inl ⟨_, hletters, rfl⟩
      · exact .inr rfl
  · exact .inl ⟨_, hc, rfl⟩

theorem keyword_excludes_name (h : word ∈ reserved) : (keyword word).Excludes name := by
  intro c
  have := IsKeyword.of_reserved h
  refine (keyword_failsEarly_or_isParsed word c).imp_right fun hp ↦ ?_
  refine ⟨c.pos, Nat.le_trans c.pos_le_skipLayout c.pos_le_lettersEnd, ?_⟩
  rw [name, if_pos (List.any_eq_true.mpr ⟨word, h, hp⟩)]

theorem firstOf_swap {r r' : Rule α} (rs : List (Rule α)) (h : r.Fails c) :
    firstOf (r :: r' :: rs) c = firstOf (r' :: r :: rs) c := by
  obtain ⟨i, hr⟩ := h
  simp only [firstOf, hr]
  cases r' c with
  | failed j =>
    cases firstOf rs c with
    | failed k => exact congrArg Outcome.failed (Nat.max_left_comm i j k)
    | _ => rfl
  | _ => rfl

/-- Rules of which at most one reads on may be tried in any order. -/
theorem firstOf_perm {rs rs' : List (Rule α)} (h : rs.Perm rs') (hx : rs.Pairwise Excludes) :
    firstOf rs = firstOf rs' := by
  funext c
  induction h with
  | nil => rfl
  | cons r _ ih => rw [firstOf, firstOf, ih hx.of_cons]
  | swap r r' rs =>
    rcases List.rel_of_pairwise_cons hx List.mem_cons_self c with h | h
    · exact firstOf_swap rs h.fails
    · exact (firstOf_swap rs h.fails).symm
  | trans h _ ih ih' => exact (ih hx).trans (ih' (h.pairwise hx fun h ↦ h.symm))

end Rule

variable {word : List Char}

theorem boolean_excludes (ht : (keyword trueWord).Excludes r) (hf : (keyword falseWord).Excludes r) :
    boolean.Excludes r := by
  refine (Excludes.located (.firstOf ?_)).bind _
  simp only [List.forall_mem_cons]
  exact ⟨ht.bind _, hf.bind _, by simp⟩

theorem keyword_excludes_reference (h : word ∈ reserved) : (keyword word).Excludes reference :=
  ((keyword_excludes_name h).symm.located.bind _).symm

section

variable (limit : Nat) (self : Rule Node)

theorem integer_needs : (integer limit).Needs (·.head?.any Char.isDigit) :=
  (numeral_needs limit).located.bind _

theorem reference_needs : reference.Needs (·.head?.any isNameStart) := name_needs.located.bind _

theorem paren_needs : (paren self).Needs (['('] <+: ·) :=
  ((symbol_needs ['(']).bind _).located.bind _

theorem letIn_needs : (letIn self).Needs (letWord <+: ·) :=
  ((keyword_needs letWord).bind _).located.bind _

theorem function_needs : (function self).Needs (fnWord <+: ·) :=
  ((keyword_needs fnWord).bind _).located.bind _

/-! Of the alternatives of one rule at most one reads on, wherever the rule is tried. -/

theorem annotationAtom_exclusive : [baseType intWord .intType, baseType boolWord .boolType, do
    symbol ['(']
    let inner ← self
    symbol [')']
    return inner].Pairwise Excludes := by
  have hint := (keyword_needs intWord).located.bind fun p ↦ pure (Node.intType p.2)
  have hbool := (keyword_needs boolWord).located.bind fun p ↦ pure (Node.boolType p.2)
  have hparen := (symbol_needs ['(']).bind fun _ ↦ do
    let inner ← self
    symbol [')']
    return inner
  refine .cons ?_ (.cons ?_ (List.pairwise_singleton _ _))
  · simp only [List.forall_mem_cons]
    exact ⟨hint.excludes_of_words hbool (by decide) (by decide),
      hint.excludes_of_words hparen (by decide) (by decide), by simp⟩
  · simp only [List.forall_mem_cons]
    exact ⟨hbool.excludes_of_words hparen (by decide) (by decide), by simp⟩

theorem boolean_exclusive : [do keyword trueWord; return true,
    (do keyword falseWord; return false : Rule Bool)].Pairwise Excludes := by
  have htrue := (keyword_needs trueWord).bind fun _ ↦ pure true
  have hfalse := (keyword_needs falseWord).bind fun _ ↦ pure false
  exact List.pairwise_pair.mpr (htrue.excludes_of_words hfalse (by decide) (by decide))

theorem atom_exclusive : [integer limit, boolean, reference, paren self].Pairwise Excludes := by
  have hinteger := integer_needs limit
  have hparen := paren_needs self
  have hdigit {c : Char} (hc : c.isDigit) : isNameStart c = false := by
    by_contra h
    rw [not_isDigit_of_isNameStart (Bool.not_eq_false _ ▸ h)] at hc
    cases hc
  refine .cons ?_ (.cons ?_ (.cons ?_ (List.pairwise_singleton _ _)))
  · simp only [List.forall_mem_cons]
    refine ⟨(boolean_excludes ?_ ?_).symm, hinteger.excludes reference_needs fun s hs hs' ↦ ?_,
      (hparen.excludes_of_head hinteger (by decide)).symm, by simp⟩
    · exact (keyword_needs trueWord).excludes_of_head hinteger (by decide)
    · exact (keyword_needs falseWord).excludes_of_head hinteger (by decide)
    · cases s with
      | nil => cases hs
      | cons c s => exact Bool.noConfusion ((hdigit hs).symm.trans hs')
  · simp only [List.forall_mem_cons]
    refine ⟨boolean_excludes ?_ ?_, boolean_excludes ?_ ?_, by simp⟩
    · exact keyword_excludes_reference (by decide)
    · exact keyword_excludes_reference (by decide)
    · exact (keyword_needs trueWord).excludes_of_words hparen (by decide) (by decide)
    · exact (keyword_needs falseWord).excludes_of_words hparen (by decide) (by decide)
  · simp only [List.forall_mem_cons]
    exact ⟨(hparen.excludes_of_head reference_needs (by decide)).symm, by simp⟩

/-- No operand begins with the keyword of a binder. -/
theorem conjunction_excludes (hw : word = letWord ∨ word = fnWord) :
    (conjunction limit self).Excludes (keyword word) := by
  have hword := keyword_needs word
  have hatom : (atom limit self).Excludes (keyword word) := by
    refine .firstOf ?_
    simp only [List.forall_mem_cons]
    refine ⟨(hword.excludes_of_head (integer_needs limit) ?_).symm, boolean_excludes ?_ ?_,
      (keyword_excludes_reference ?_).symm, (paren_needs self).excludes_of_words hword ?_ ?_,
      by simp⟩
    · rcases hw with rfl | rfl <;> decide
    · refine (keyword_needs trueWord).excludes_of_words hword ?_ ?_ <;>
        rcases hw with rfl | rfl <;> decide
    · refine (keyword_needs falseWord).excludes_of_words hword ?_ ?_ <;>
        rcases hw with rfl | rfl <;> decide
    · rcases hw with rfl | rfl <;> decide
    · rcases hw with rfl | rfl <;> decide
    · rcases hw with rfl | rfl <;> decide
  exact ((hatom.bind _).bind _).bind _

theorem expressionBody_exclusive :
    [letIn self, function self, conjunction limit self].Pairwise Excludes := by
  refine .cons ?_ (.cons ?_ (List.pairwise_singleton _ _))
  · simp only [List.forall_mem_cons]
    refine ⟨(letIn_needs self).excludes_of_words (function_needs self) (by decide) (by decide),
      ?_, by simp⟩
    exact ((conjunction_excludes limit self (.inl rfl)).symm.bind _).located.bind _
  · simp only [List.forall_mem_cons]
    refine ⟨?_, by simp⟩
    exact ((conjunction_excludes limit self (.inr rfl)).symm.bind _).located.bind _

end

end TypedLet.Grammar

import TypedLet.Proofs.Grammar.Alternatives
import TypedLet.Proofs.Grammar.Effort

namespace TypedLet.Grammar

open Rule Stepwise

variable {α β : Type} {text : String} {limit m n s : Nat} {c : Cursor}

theorem Rule.FailsEarly.not_isParsed {r : Rule α} (h : r.FailsEarly c) : ¬ (r c).isParsed := by
  obtain ⟨i, -, hr⟩ := h
  rw [hr]
  exact Bool.false_ne_true

theorem Rule.Excludes.failsEarly {r : Rule α} {r' : Rule β} (h : r.Excludes r')
    (hr : (r c).isParsed) : r'.FailsEarly c :=
  (h c).resolve_left fun hf ↦ hf.not_isParsed hr

/-! A terminal is one attempt. From that and from what an annotation and an expression come to, five
and eighteen attempts where they fail outright, the prices of all the rules follow. -/

section

variable (text m)

theorem symbol_costs (mark : List Char) [IsMark mark] :
    (symbol mark).Costs text m 1 ⟨[], 1, 39, fun _ ↦ False⟩ fun b _ ↦ Stepwise.symbol b mark :=
  .terminal (symbol_onward mark m) rfl 1

theorem keyword_costs (word : List Char) [IsKeyword word] :
    (keyword word).Costs text m 1 ⟨[], 1, 39, fun _ ↦ False⟩ fun b _ ↦ Stepwise.keyword b word :=
  .terminal (keyword_onward word m) rfl 1

theorem name_costs : name.Costs text m 1 ⟨[], 1, 39, fun _ ↦ False⟩ fun b _ ↦ Stepwise.name b :=
  .terminal (name_onward m) rfl 1

theorem numeral_costs (limit : Nat) :
    (numeral limit).Costs text m 1 ⟨[], 1, 39, fun _ ↦ False⟩ fun b _ ↦ Stepwise.numeral b limit :=
  .terminal (numeral_onward limit m) rfl 1

theorem baseType_costs (word : List Char) [IsKeyword word] (make : Option Span → Node) :
    (baseType word make).Costs text m 1 ⟨[], 1, 39, fun _ ↦ False⟩
      fun b _ ↦ Stepwise.baseType b word make :=
  (keyword_costs text m word).located.returns fun _ _ ↦ ⟨_, rfl, .pure⟩

theorem integer_costs (limit : Nat) :
    (integer limit).Costs text m 1 ⟨[], 2, 38, fun _ ↦ False⟩ fun b _ ↦ Stepwise.integer b limit :=
  ((numeral_costs text m limit).located.returns fun _ _ ↦ ⟨_, rfl, .pure⟩).attempt rfl

theorem reference_costs :
    reference.Costs text m 1 ⟨[], 2, 38, fun _ ↦ False⟩ fun b _ ↦ Stepwise.reference b :=
  ((name_costs text m).located.returns fun _ _ ↦ ⟨_, rfl, .pure⟩).attempt rfl

theorem boolean_costs :
    boolean.Costs text m 1 ⟨[], 3, 37, fun _ ↦ False⟩ fun b _ ↦ Stepwise.boolean b := by
  have hword (word : List Char) [IsKeyword word] (a : Bool) :
      (do keyword word; return a : Rule Bool).Costs text m 1 ⟨[], 1, 39, fun _ ↦ False⟩
        fun b _ ↦ (do Stepwise.keyword b word; return a) :=
    (keyword_costs text m word).returns fun _ _ ↦ ⟨_, rfl, .pure⟩
  have hwords := (hword trueWord true).firstOf_cons (k := 38) (hword falseWord false).firstOf_singleton
    (fun _ hl ↦ hl.elim) (by decide) (by decide)
  exact ((hwords.mono fun _ hl ↦ hl.elim id id).located.returns fun _ _ ↦ ⟨_, rfl, .pure⟩).attempt rfl

end

/-- A parenthesis opens ahead. -/
def Cursor.Opens (c : Cursor) : Prop := (symbol ['('] c).isParsed

section

variable {self : Rule Node} {self' : Nat → Nat → Stepwise Node} {late : Cursor → Prop}

/-- The closing parenthesis cannot be read in front of a mark behind which a part was dropped. -/
theorem enclosed_costs {marks : List (List Char)} {few gain : Nat}
    (h : self.Costs text m 0 ⟨marks, few, gain, late⟩ self') (hfew : few ≤ 39) (hgain : 1 ≤ gain)
    (hm : ∀ w ∈ marks, Diverge w [')']) :
    (do symbol ['(']; let inner ← self; symbol [')']; return inner : Rule Node).Costs text (m + 1) 1
      ⟨[], 1, 39 - few, Cursor.Opens⟩ fun b n ↦ (do
        Stepwise.symbol b ['(']
        let inner ← self' b n
        Stepwise.symbol b [')']
        return inner) := by
  have hclose (a : Node) : (do symbol [')']; return a : Rule Node).Costs text m 1
      ⟨[], 1, 39, fun _ ↦ False⟩ fun b _ ↦ (do Stepwise.symbol b [')']; return a) :=
    (symbol_costs text m [')']).returns fun _ _ ↦ ⟨_, rfl, .pure⟩
  have hinner := h.bind (Nat.le_succ m) hclose (fun _ ↦ (symbol_shuns hm).balks_outright _)
    (Nat.zero_le 1) hgain
  have hopen := (symbol_costs text (m + 1) ['(']).andThen (Nat.le_refl _) (fun _ ↦ hinner)
    (Nat.le_refl 1) hfew
  exact hopen.mono fun _ hl ↦ hl.resolve_left id

theorem annotationAtom_costs (h : self.Costs text m 0 ⟨arrowMarks, 5, 29, fun _ ↦ True⟩ self') :
    (annotationAtom self).Costs text (m + 1) 1 ⟨[], 4, 31, fun _ ↦ True⟩
      fun b n ↦ Stepwise.annotationAtom b (self' b n) := by
  have hparen := (enclosed_costs h (by decide) (by decide) (by decide)).firstOf_singleton
  have hrest := (baseType_costs text (m + 1) boolWord .boolType).firstOf_cons (k := 33) hparen
    (fun _ hl ↦ hl.elim) (by decide) (by decide)
  have hall := (baseType_costs text (m + 1) intWord .intType).firstOf_cons (k := 32) hrest
    (fun _ hl ↦ hl.elim) (by decide) (by decide)
  exact (hall.mono fun _ _ ↦ trivial).attempt rfl

theorem annotationBody_costs (h : self.Costs text m 0 ⟨arrowMarks, 5, 29, fun _ ↦ True⟩ self') :
    (annotationBody self).Costs text (m + 1) 1 ⟨arrowMarks, 4, 30, fun _ ↦ True⟩
      fun b n ↦ Stepwise.annotationBody b (self' b n) :=
  (annotationAtom_costs h).chain (Nat.le_refl 1) (by decide) (by decide) arrows

/-- Each annotation within an annotation is tried further on. -/
theorem annotationUpTo_costs (text : String) (m : Nat) :
    annotation.Costs text m 0 ⟨arrowMarks, 5, 29, fun _ ↦ True⟩ Stepwise.annotationUpTo := by
  induction m with
  | zero =>
    intro i _ hm
    omega
  | succ m ih =>
    exact (annotationBody_costs ih).record (fun i hi ↦ annotation_eq_body hi) (Nat.zero_le 1)
      (fun _ ↦ rfl) fun hmakes ↦ hmakes.descend fun _ _ ↦ rfl

theorem annotation_costs (text : String) (m : Nat) :
    annotation.Costs text m 0 ⟨arrowMarks, 5, 29, fun _ ↦ True⟩
      fun b _ ↦ Stepwise.annotation b := by
  intro i hi hm
  obtain ⟨made, hne, hmade, hpaid, hmakes⟩ := annotationUpTo_costs text m hi hm
  exact ⟨made, hne, hmade, hpaid, hmakes.top⟩

theorem chain_costs (op : Op) (mark : List Char) [IsMark mark] {part : Rule Node}
    {part' : Nat → Nat → Stepwise Node} {marks : List (List Char)} {few gain : Nat}
    (h : part.Costs text m 1 ⟨marks, few, gain + 2, late⟩ part') (hfew : few ≤ 39)
    (hm : ∀ w ∈ marks, Diverge w mark) :
    (chain op mark part).Costs text m 1 ⟨mark :: marks, few + 1, gain, late⟩
      fun b n ↦ Stepwise.chain b op mark (part' b n) :=
  (h.chain (Nat.le_refl 1) hfew hm _).attempt rfl

section

variable (h : self.Costs text m 0 ⟨operatorMarks, 18, 1, fun _ ↦ True⟩ self')

include h

theorem paren_costs :
    (paren self).Costs text (m + 1) 1 ⟨[], 2, 20, Cursor.Opens⟩
      fun b n ↦ Stepwise.paren b (self' b n) := by
  have hinner := enclosed_costs h (by decide) (by decide) (by decide)
  exact (hinner.located.returns fun _ _ ↦ ⟨_, rfl, .pure⟩).attempt rfl

theorem atom_costs (limit : Nat) :
    (atom limit self).Costs text (m + 1) 1 ⟨[], 10, 12, Cursor.Opens⟩
      fun b n ↦ Stepwise.atom b limit (self' b n) := by
  have hrest := (reference_costs text (m + 1)).firstOf_cons (k := 18) (paren_costs h).firstOf_singleton
    (fun _ hl ↦ hl.elim) (by decide) (by decide)
  have hrest := (boolean_costs text (m + 1)).firstOf_cons (k := 15) hrest
    (fun _ hl ↦ hl.elim) (by decide) (by decide)
  have hall := (integer_costs text (m + 1) limit).firstOf_cons (k := 13) hrest
    (fun _ hl ↦ hl.elim) (by decide) (by decide)
  refine (hall.mono fun c hl ↦ ?_).attempt rfl
  rcases hl with hl | hl | hl | hl
  · exact hl.elim
  · exact hl.elim
  · exact hl.elim
  · exact hl

theorem conjunction_costs (limit : Nat) :
    (conjunction limit self).Costs text (m + 1) 1 ⟨operatorMarks, 13, 6, Cursor.Opens⟩
      fun b n ↦ Stepwise.conjunction b limit (self' b n) := by
  have hsum := chain_costs .sum ['+'] (atom_costs h limit) (by decide) (by decide)
  have hequality := chain_costs .equal ['=', '='] hsum (by decide) (by decide)
  exact chain_costs .conj ['&', '&'] hequality (by decide) (by decide)

theorem letIn_costs :
    (letIn self).Costs text (m + 1) 1 ⟨operatorMarks, 2, 37, fun c ↦ (keyword letWord c).isParsed⟩
      fun b n ↦ Stepwise.letIn b (self' b n) := by
  -- from the end, since each part has to pay for the failure of those behind it
  have hbody (x : String) (a : Node) := h.returns (f := fun body ↦ pure (x, a, body)) fun _ _ ↦
    ⟨_, rfl, .pure⟩
  have hin (x : String) (a : Node) := (keyword_costs text m inWord).andThen (Nat.le_succ m)
    (fun _ ↦ hbody x a) (Nat.le_refl 1) (by decide)
  have hright (x : String) := h.bind (Nat.le_succ m) (hin x)
    (fun _ ↦ (keyword_shuns (by decide)).balks _) (Nat.zero_le 1) (by decide)
  have hsign (x : String) := (symbol_costs text m ['=']).andThen (Nat.le_succ m) (fun _ ↦ hright x)
    (Nat.le_refl 1) (by decide)
  have hname := (name_costs text m).andThen (Nat.le_succ m) hsign (Nat.le_refl 1) (by decide)
  have hparts := (keyword_costs text (m + 1) letWord).andThen (Nat.le_refl _) (fun _ ↦ hname)
    (Nat.le_refl 1) (by decide)
  exact ((hparts.mono fun _ hl ↦ hl.resolve_left id).located.returns fun _ _ ↦
    ⟨_, rfl, .pure⟩).attempt rfl

theorem function_costs :
    (function self).Costs text (m + 1) 1 ⟨operatorMarks, 2, 37, fun c ↦ (keyword fnWord c).isParsed⟩
      fun b n ↦ Stepwise.function b (self' b n) := by
  have hbody (x : String × Span) (t : Node) := h.returns (f := fun body ↦ pure (x, t, body)) fun _ _ ↦
    ⟨_, rfl, .pure⟩
  have harrow (x : String × Span) (t : Node) := (symbol_costs text m ['=', '>']).andThen
    (Nat.le_succ m) (fun _ ↦ hbody x t) (Nat.le_refl 1) (by decide)
  have hclose (x : String × Span) (t : Node) := (symbol_costs text m [')']).andThen (Nat.le_succ m)
    (fun _ ↦ harrow x t) (Nat.le_refl 1) (by decide)
  have htype (x : String × Span) := (annotation_costs text m).bind (Nat.le_succ m) (hclose x)
    (fun _ ↦ (symbol_shuns (by decide)).balks _) (Nat.zero_le 1) (by decide)
  have hcolon (x : String × Span) := (symbol_costs text m [':']).andThen (Nat.le_succ m)
    (fun _ ↦ htype x) (Nat.le_refl 1) (by decide)
  have hname := (name_costs text m).located.andThen (Nat.le_succ m) hcolon (Nat.le_refl 1) (by decide)
  have hopen := (symbol_costs text m ['(']).andThen (Nat.le_succ m) (fun _ ↦ hname) (Nat.le_refl 1)
    (by decide)
  have hparts := (keyword_costs text (m + 1) fnWord).andThen (Nat.le_refl _) (fun _ ↦ hopen)
    (Nat.le_refl 1) (by decide)
  exact ((hparts.mono fun _ hl ↦ hl.resolve_left id).located.returns fun _ _ ↦
    ⟨_, rfl, .pure⟩).attempt rfl

theorem expressionBody_costs (limit : Nat) :
    (expressionBody limit self).Costs text (m + 1) 1 ⟨operatorMarks, 17, 2, fun _ ↦ True⟩
      fun b n ↦ Stepwise.expressionBody b limit (self' b n) := by
  have hlet := keyword_needs letWord
  have hfn := keyword_needs fnWord
  have hopen := symbol_needs ['(']
  -- where the keyword of one binder can be read, neither the other one nor an operand can
  have hrest := (function_costs h).firstOf_cons (k := 4) (conjunction_costs h limit).firstOf_singleton
    (fun c hl ↦ ⟨?_, ?_⟩) (by decide) (by decide)
  · have hall := (letIn_costs h).firstOf_cons (k := 2) hrest (fun c hl ↦ ⟨?_, ?_⟩) (by decide)
      (by decide)
    · exact hall.mono fun _ _ ↦ trivial
    · have hx := (function_needs self).excludes_of_words hlet (by decide) (by decide)
      have hc := conjunction_excludes limit self (.inl rfl)
      apply firstOf_fails
      simp only [List.forall_mem_cons]
      exact ⟨(hx.symm.failsEarly hl).fails, (hc.symm.failsEarly hl).fails, by simp⟩
    · rintro (hl' | hl')
      · have hx := hlet.excludes_of_words hfn (by decide) (by decide)
        exact (hx.failsEarly hl).not_isParsed hl'
      · have hx := hlet.excludes_of_words hopen (by decide) (by decide)
        exact (hx.failsEarly hl).not_isParsed hl'
  · have hc := conjunction_excludes limit self (.inr rfl)
    apply firstOf_fails
    simp only [List.forall_mem_cons]
    exact ⟨(hc.symm.failsEarly hl).fails, by simp⟩
  · have hx := hfn.excludes_of_words hopen (by decide) (by decide)
    exact (hx.failsEarly hl).not_isParsed

end

end

/-- Each expression within an expression is tried further on. -/
theorem expressionUpTo_costs (text : String) (limit m : Nat) :
    (expression limit).Costs text m 0 ⟨operatorMarks, 18, 1, fun _ ↦ True⟩
      fun b n ↦ Stepwise.expressionUpTo b limit n := by
  induction m with
  | zero =>
    intro i _ hm
    omega
  | succ m ih =>
    exact (expressionBody_costs ih limit).record (e := .expression)
      (fun i hi ↦ expression_eq_body limit hi) (Nat.zero_le 1) (fun _ ↦ rfl) fun hmakes ↦
        hmakes.descend fun _ _ ↦ rfl

end TypedLet.Grammar

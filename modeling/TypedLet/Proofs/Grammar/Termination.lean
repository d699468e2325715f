import TypedLet.Proofs.Grammar.Descent

namespace TypedLet.Op

open Grammar Rule

def part (limit : Nat) : Op → Rule Node
  | sum => atom limit (expression limit)
  | equal => Grammar.sum limit (expression limit)
  | conj => equality limit (expression limit)

instance (op : Op) : IsMark op.mark := by
  cases op
  · exact inferInstanceAs (IsMark ['&', '&'])
  · exact inferInstanceAs (IsMark ['=', '='])
  · exact inferInstanceAs (IsMark ['+'])

instance (op : Op) : Visible op.mark := by
  cases op
  · exact inferInstanceAs (Visible ['&', '&'])
  · exact inferInstanceAs (Visible ['=', '='])
  · exact inferInstanceAs (Visible ['+'])

end TypedLet.Op

namespace TypedLet.Grammar

open Node Rule

/-- What an element is read as. -/
def Element.Value : Element → Type
  | name => String
  | numeral => Nat
  | keyword _ | symbol _ => Unit
  | _ => Node

def Element.rule (limit : Nat) : (e : Element) → Rule e.Value
  | name => Grammar.name
  | numeral => Grammar.numeral limit
  | keyword word => Grammar.keyword word
  | symbol mark => Grammar.symbol mark
  | integer => Grammar.integer limit
  | boolean => Grammar.boolean
  | reference => Grammar.reference
  | paren => Grammar.paren (Grammar.expression limit)
  | atom => Grammar.atom limit (Grammar.expression limit)
  | chain op => Grammar.chain op op.mark (op.part limit)
  | letIn => Grammar.letIn (Grammar.expression limit)
  | function => Grammar.function (Grammar.expression limit)
  | expression => Grammar.expression limit
  | annotationAtom => Grammar.annotationAtom Grammar.annotation
  | annotation => Grammar.annotation

theorem part_inStep {p : Pace} {limit m : Nat} (hp : p.Steady limit) (op : Op) :
    (op.part limit).InStep p m 1 (Parallel p.Over) (op.part limit) := by
  have hatom : (atom limit (expression limit)).InStep p m 1 (Parallel p.Over) _ :=
    (atom_inStep hp (expression_inStep hp)).mono (Nat.le_succ m) (Nat.le_refl 1)
  cases op with
  | sum => exact hatom
  | equal => exact chain_inStep hp hatom
  | conj => exact chain_inStep hp (chain_inStep hp hatom)

theorem Rule.InStep.advances {α : Type} {V : α → α → Prop} {r r' : Rule α} {text : String} {i : Nat}
    {a : α} {c : Cursor} (h : r.InStep (onward text) (text.toList.length + 1) 1 V r')
    (hi : i ≤ text.toList.length) (hr : r (.inText text i) = .parsed a c) :
    ∃ j, i < j ∧ j ≤ text.toList.length ∧ c = .inText text j := by
  have hlen := length_rest_inText text i
  have ho := h (onward_abreast hi) (by change (Cursor.inText text i).rest.length < _; omega)
  rw [hr] at ho
  change (Outcome.parsed a c).InStep _ 1 (Cursor.inText text i).rest.length _ _ at ho
  rw [hlen] at ho
  exact ho.advances

/-- Whatever is read of a text ends behind the place where it begins. -/
theorem Element.advances (e : Element) {limit i : Nat} {text : String} {a : e.Value} {c : Cursor}
    (hi : i ≤ text.toList.length) (h : e.rule limit (.inText text i) = .parsed a c) :
    ∃ j, i < j ∧ j ≤ text.toList.length ∧ c = .inText text j := by
  have hp := onward_steady text limit
  have hself {m : Nat} : (Grammar.expression limit).InStep (onward text) m 1 (Parallel Eq) _ :=
    expression_inStep hp
  cases e with
  | name => exact (name_onward _).advances hi h
  | numeral => exact (numeral_onward limit _).advances hi h
  | keyword word => exact (keyword_onward word _).advances hi h
  | symbol mark => exact (symbol_onward mark _).advances hi h
  | integer => exact (integer_inStep hp).advances hi h
  | boolean => exact (boolean_inStep hp).advances hi h
  | reference => exact (reference_inStep hp).advances hi h
  | paren => exact (paren_inStep hp hself).advances hi h
  | atom => exact (atom_inStep hp hself).advances hi h
  | chain op => exact (chain_inStep hp (part_inStep hp op)).advances hi h
  | letIn => exact (letIn_inStep hp hself).advances hi h
  | function => exact (function_inStep hp hself).advances hi h
  | expression => exact hself.advances hi h
  | annotationAtom => exact (annotationAtom_inStep hp (annotation_inStep hp)).advances hi h
  | annotation => exact (annotation_inStep hp).advances hi h

/-- From `i` the rule comes to an end after a number of attempts for which what lies ahead pays. Those
at expressions and annotations are made further on. Within any bound that leaves room for them the
stepwise rule makes them all, and ends as the rule does. -/
def Rule.Settles (text : String) (i : Nat) (e : Element) (r : Rule Node) (r' : Nat → Stepwise Node) :
    Prop :=
  ∃ nested : List Attempt, nested.length < 40 * (text.toList.length - i + 1) ∧
    (∀ a ∈ nested, a.Lies text i (i + 1)) ∧
    ∀ bound > nested.length,
      r' bound (.inText text i) [] = some (r (.inText text i), nested ++ [⟨e, i⟩])

/-- Given the rule itself, `body` reads as it does from everywhere in the text, and no other rule is
like that. -/
def Rule.SolvesAlone (text : String) (body : Rule Node → Rule Node) (r : Rule Node) : Prop :=
  (∀ i ≤ text.toList.length, r (.inText text i) = body r (.inText text i)) ∧
  ∀ r' : Rule Node, (∀ i ≤ text.toList.length, r' (.inText text i) = body r' (.inText text i)) →
    ∀ i ≤ text.toList.length, r' (.inText text i) = r (.inText text i)

/-- As many rounds as there are characters ahead are all that a loop can make. -/
def Rule.Tires (text : String) (i : Nat) (r : Rule Node) : Prop :=
  ∀ n ≥ text.toList.length - i,
    r.upTo n (.inText text i) = r.upTo (text.toList.length - i) (.inText text i)

theorem Outcome.Paid.steps_lt {α : Type} {o : Outcome α} {text : String} {p : Price} {i steps : Nat}
    (h : o.Paid text p i (40 * (text.toList.length - i)) steps) (hfew : p.few < 40) :
    steps < 40 * (text.toList.length - i + 1) := by
  cases h <;> omega

theorem Rule.Costs.settles {text : String} {p : Price} {e : Element} {i m : Nat} {r : Rule Node}
    {r₀ r' : Nat → Nat → Stepwise Node} (h : r.Costs text m 1 p r₀)
    (hr : ∀ b n, r' b (n + 1) = Stepwise.attempt b e (r₀ b n)) (hfew : p.few < 40)
    (hi : i ≤ text.toList.length) (hm : text.toList.length - i < m) :
    r.Settles text i e fun b ↦ r' b b := by
  obtain ⟨made, -, hmade, hpaid, hmakes⟩ := h hi hm
  refine ⟨made, hpaid.steps_lt hfew, hmade, fun b hb ↦ ?_⟩
  have hlen : (made ++ [(⟨e, i⟩ : Attempt)]).length + ([] : List Attempt).length ≤ b := by
    rw [List.length_append]
    exact hb
  have hrun : r' b b (.inText text i) [] = some (r (.inText text i), made ++ [⟨e, i⟩] ++ []) :=
    hmakes.descend hr hlen hlen
  rwa [List.append_nil] at hrun

theorem expression_settles {text : String} {i : Nat} (limit : Nat) (hi : i ≤ text.toList.length) :
    (expression limit).Settles text i .expression (Stepwise.expression · limit) := by
  have hbody := expressionBody_costs (expressionUpTo_costs text limit (text.toList.length - i)) limit
  have h := hbody.settles (fun b n ↦ (rfl : Stepwise.expressionUpTo b limit (n + 1) = _)) (by decide)
    hi (Nat.lt_succ_self _)
  rw [Rule.Settles, ← expression_eq_body limit hi] at h
  exact h

theorem annotation_settles {text : String} {i : Nat} (hi : i ≤ text.toList.length) :
    annotation.Settles text i Element.annotation Stepwise.annotation := by
  have hbody := annotationBody_costs (annotationUpTo_costs text (text.toList.length - i))
  have h := hbody.settles (fun b n ↦ (rfl : Stepwise.annotationUpTo b (n + 1) = _)) (by decide) hi
    (Nat.lt_succ_self _)
  rw [Rule.Settles, ← annotation_eq_body hi] at h
  exact h

/-- A text with its tabs expanded is at most eight times as long. -/
theorem Rule.Settles.read {source : String} {e : Element} {r : Rule Node} {r' : Nat → Stepwise Node}
    {bound : Nat} (h : r.Settles (Text.expandTabs source) 0 e r')
    (hb : 320 * source.toList.length + 40 ≤ bound) :
    (r' bound).whole.read source = some (r.whole.read source) := by
  obtain ⟨nested, hlen, -, hrun⟩ := h
  have htabs := Text.length_expandTabsFrom_le 0 source.toList
  have hrun := hrun bound (by
    rw [Text.expandTabs, String.toList_ofList] at hlen
    rw [Text.tabWidth] at htabs
    omega)
  rw [← Cursor.start_eq] at hrun
  rw [Stepwise.read, Stepwise.whole, hrun]
  rfl

/-- What brings the descent into a text to an end at `i`. -/
structure Terminates (text : String) (limit i : Nat) : Prop where
  advances (e : Element) (a : e.Value) (c : Cursor) : e.rule limit (.inText text i) = .parsed a c →
    ∃ j, i < j ∧ j ≤ text.toList.length ∧ c = .inText text j
  expressionEnds : (expression limit).Settles text i .expression (Stepwise.expression · limit)
  annotationEnds : annotation.Settles text i Element.annotation Stepwise.annotation
  expressionAlone : (expression limit).SolvesAlone text (expressionBody limit)
  annotationAlone : annotation.SolvesAlone text annotationBody
  operationsTire (op : Op) : Rule.Tires text i do symbol op.mark; op.part limit
  arrowsTire : Rule.Tires text i do symbol ['-', '>']; annotationAtom annotation
  reads (bound : Nat) : 320 * text.toList.length + 40 ≤ bound →
    Stepwise.readExpression bound text = some (readExpression text) ∧
    Stepwise.readAnnotation bound text = some ( readAnnotation text)

/-- The descent ends on every text: what is read is never empty, expressions and annotations lie
further and further on within one another, and no bound is needed on the loops or on the depth. With a
number of attempts that is linear in the length of the text nothing is broken off. -/
theorem descent_terminates {text : String} {i : Nat} (limit : Nat) (hi : i ≤ text.toList.length) :
    Terminates text limit i where
  advances e _ _ h := e.advances hi h
  expressionEnds := expression_settles limit hi
  annotationEnds := annotation_settles hi
  expressionAlone := by
    have hbody (i : Nat) (hi : i ≤ text.toList.length) := expression_eq_body limit hi
    refine ⟨hbody, fun r' hr' i hi ↦ eq_of_eq_body ?_ hr' hbody hi⟩
    intro m r r' h
    exact expressionBody_inStep (onward_steady text limit) h
  annotationAlone := by
    have hbody (i : Nat) (hi : i ≤ text.toList.length) := annotation_eq_body hi
    refine ⟨hbody, fun r' hr' i hi ↦ eq_of_eq_body ?_ hr' hbody hi⟩
    intro m r r' h
    exact annotationBody_inStep (onward_steady text limit) h
  operationsTire op n hn := by
    have hp := onward_steady text limit
    exact upTo_eq_of_le (round_inStep hp op.mark (part_inStep hp op)) hi hn
  arrowsTire n hn := by
    have hp := onward_steady text limit
    have hatom := annotationAtom_inStep hp (m := text.toList.length) (annotation_inStep hp)
    exact upTo_eq_of_le (round_inStep hp ['-', '>'] hatom) hi hn
  reads bound hb := by
    have hzero := Nat.zero_le (Text.expandTabs text).toList.length
    exact ⟨(expression_settles maxDigits hzero).read hb, (annotation_settles hzero).read hb⟩

theorem open_parenthesis_terminates :
    4 ≤ "1 + (".toList.length ∧ Terminates "1 + (" maxDigits 4 :=
  ⟨by decide, descent_terminates maxDigits (by decide)⟩

example : (Stepwise.expression 36 maxDigits (.inText "1 + (" 4) []).isSome ∧
    (Stepwise.expression 35 maxDigits (.inText "1 + (" 4) []).isNone := by
  decide +kernel

end TypedLet.Grammar

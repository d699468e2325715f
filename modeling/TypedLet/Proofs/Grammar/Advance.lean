import TypedLet.Proofs.Grammar.Lexeme
import TypedLet.Proofs.Grammar.Lockstep

namespace TypedLet.Grammar

open Node Rule

/-- A reading of a text beside itself. -/
def onward (text : String) : Pace where
  Abreast c c' := c = c' ∧ ∃ i ≤ text.toList.length, c = .inText text i
  ahead c := c.rest.length
  Fault := Eq
  Over := Eq
  Halts _ := False

variable {α : Type} {a a' : α} {V : α → α → Prop} {o o' : Outcome α} {text : String} {t t' : Node}
variable {limit i j k l m n : Nat}

theorem length_rest_inText (text : String) (i : Nat) :
    (Cursor.inText text i).rest.length = text.toList.length - i := List.length_drop

theorem onward_abreast (hi : i ≤ text.toList.length) :
    (onward text).Abreast (.inText text i) (.inText text i) := ⟨rfl, i, hi, rfl⟩

theorem parallel_eq (h : t.Parallel Eq t') : t = t' := by
  have hs {s s' : Option Span} (h : Option.Rel Eq s s') : s = s' := by
    cases h with
    | some h => rw [h]
    | none => rfl
  induction h with
  | absent => rfl
  | intType h | boolType h | var h | intLit h | boolLit h => rw [hs h]
  | paren _ h ih => rw [ih, hs h]
  | funcType _ _ h iha ihb | binary _ _ h iha ihb | letIn _ _ h iha ihb => rw [iha, ihb, hs h]
  | fn _ _ h h' iht ihb => rw [iht, ihb, hs h, hs h']

namespace Outcome.InStep

theorem eq (h : o.InStep (onward text) k l V o') (hV : ∀ a a', V a a' → a = a') : o = o' := by
  cases h with
  | parsed hv hd => rw [hV _ _ hv, hd.1]
  | failed hf => exact congrArg _ hf
  | overlong => rfl
  | halted hh => exact hh.elim

/-- What is read from a place ends behind it and within the text. -/
theorem advances {c : Cursor} (h : (Outcome.parsed a c).InStep (onward text) (k + 1)
      (text.toList.length - i) V o') :
    ∃ j, i < j ∧ j ≤ text.toList.length ∧ c = .inText text j := by
  cases h with
  | parsed _ hd hk =>
    obtain ⟨-, j, hj, rfl⟩ := hd
    change (Cursor.inText text j).rest.length + (k + 1) ≤ _ at hk
    rw [length_rest_inText] at hk
    exact ⟨j, by omega, hj, rfl⟩

end Outcome.InStep

/-! The terminals read on, or fail. -/

theorem onward_parsed (hi : i < k) (hk : k ≤ text.toList.length) :
    (Outcome.parsed a (.inText text k)).InStep (onward text) 1
      ((onward text).ahead (.inText text i)) Eq (.parsed a (.inText text k)) := by
  refine .parsed rfl (onward_abreast hk) ?_
  change (Cursor.inText text k).rest.length + 1 ≤ (Cursor.inText text i).rest.length
  rw [length_rest_inText, length_rest_inText]
  omega

theorem onward_stands {w : List Char} (hs : Stands text.toList w (skip text.toList i) k)
    (hw : w ≠ []) : (Outcome.parsed a (.inText text k)).InStep (onward text) 1
      ((onward text).ahead (.inText text i)) Eq (.parsed a (.inText text k)) :=
  onward_parsed (Nat.lt_of_le_of_lt (le_skip _ i) (hs.lt hw)) (hs.le_length_of_ne_nil hw)

theorem symbol_onward (mark : List Char) (m : Nat) [IsMark mark] :
    (symbol mark).InStep (onward text) m 1 Eq (symbol mark) := by
  rintro _ _ ⟨rfl, i, hi, rfl⟩ -
  rw [symbol_inText]
  split
  next hp => exact onward_stands ⟨hp, rfl⟩ Solid.ne_nil
  · exact .failed rfl

theorem keyword_onward (word : List Char) (m : Nat) [IsKeyword word] :
    (keyword word).InStep (onward text) m 1 Eq (keyword word) := by
  rintro _ _ ⟨rfl, i, hi, rfl⟩ -
  rw [keyword_inText]
  split
  next hp =>
    split
    · exact .failed rfl
    · split
      · exact .failed rfl
      · exact onward_stands ⟨hp, rfl⟩ IsKeyword.ne_nil
  · exact .failed rfl

theorem name_onward (m : Nat) : name.InStep (onward text) m 1 Eq name := by
  rintro _ _ ⟨rfl, i, hi, rfl⟩ -
  rw [name_inText]
  split
  · exact .failed rfl
  · split
    next hs =>
      exact onward_stands (stands_takeWhile _ _ _)
        (takeWhile_ne_nil (head_any_mono (fun _ ↦ isNameChar_of_isNameStart) hs))
    · exact .failed rfl

theorem numeral_onward (limit m : Nat) :
    (numeral limit).InStep (onward text) m 1 Eq (numeral limit) := by
  rintro _ _ ⟨rfl, i, hi, rfl⟩ -
  rw [numeral_inText]
  dsimp only
  split
  · exact .failed rfl
  next hne =>
    have hs := stands_takeWhile text.toList Char.isDigit (skip text.toList i)
    have hw := mt List.isEmpty_iff.mpr hne
    split
    · have hlt := Nat.lt_of_le_of_lt (le_skip _ i) (hs.lt hw)
      have hle := hs.le_length_of_ne_nil hw
      refine .overlong ?_
      change 0 < (Cursor.inText text i).rest.length
      rw [length_rest_inText]
      omega
    · exact onward_stands hs hw

theorem onward_steady (text : String) (limit : Nat) : (onward text).Steady limit where
  skip := by
    rintro _ _ ⟨rfl, i, hi, rfl⟩
    rw [Cursor.skipLayout_inText]
    exact onward_abreast (skip_le_length hi)
  ahead_skip _ := Cursor.length_rest_skipLayout_le _
  ahead_le := by
    rintro c _ ⟨rfl, -⟩
    exact ⟨Nat.le_refl _, Nat.le_refl _⟩
  isEmpty h := congrArg (·.skipLayout.rest.isEmpty) h.1
  fault h := congrArg _ h.1
  fault_zero := rfl
  fault_max := by
    rintro i _ j _ rfl rfl
    rfl
  spanTo := by
    rintro c _ d _ ⟨rfl, -⟩ ⟨rfl, -⟩
    rfl
  merge := by
    rintro a _ b _ rfl rfl
    rfl
  symbol mark m _ _ := symbol_onward mark m
  keyword word m _ := keyword_onward word m
  name := name_onward
  numeral := numeral_onward limit

/-! Neither the recursion nor a loop needs a bound. -/

theorem Rule.InStep.eq_onward {r r' : Rule Node} {m : Nat}
    (h : r.InStep (onward text) m k (Parallel Eq) r') (hi : i ≤ text.toList.length)
    (hm : text.toList.length - i < m) : r (.inText text i) = r' (.inText text i) := by
  rw [← length_rest_inText] at hm
  exact (h (onward_abreast hi) hm).eq fun _ _ ↦ parallel_eq

/-- An expression is read as the grammar has it, whatever the expressions within it are. -/
theorem expression_eq_body (limit : Nat) (hi : i ≤ text.toList.length) :
    expression limit (.inText text i) =
      expressionBody limit (expression limit) (.inText text i) := by
  have hp := onward_steady text limit
  have hself := expressionUpTo_inStep_expression hp (Nat.le_refl (text.toList.length - i))
  rw [expression, length_rest_inText]
  exact (expressionBody_inStep hp hself).eq_onward hi (Nat.lt_succ_self _)

theorem annotation_eq_body (hi : i ≤ text.toList.length) :
    annotation (.inText text i) = annotationBody annotation (.inText text i) := by
  have hp := onward_steady text 0
  have hself := annotationUpTo_inStep_annotation hp (Nat.le_refl (text.toList.length - i))
  unfold annotation
  rw [length_rest_inText]
  exact (annotationBody_inStep hp hself).eq_onward hi (Nat.lt_succ_self _)

/-- A rule is known at a place as soon as the rule that it calls is known further on, so that it can
be no other than one that answers to the same description. -/
theorem eq_of_eq_body {body : Rule Node → Rule Node} {r r' : Rule Node}
    (hbody : ∀ {m r r'}, r.InStep (onward text) m 1 (Parallel Eq) r' →
      (body r).InStep (onward text) (m + 1) 1 (Parallel Eq) (body r'))
    (hr : ∀ i ≤ text.toList.length, r (.inText text i) = body r (.inText text i))
    (hr' : ∀ i ≤ text.toList.length, r' (.inText text i) = body r' (.inText text i))
    (hi : i ≤ text.toList.length) : r (.inText text i) = r' (.inText text i) := by
  have h (m : Nat) : r.InStep (onward text) m 1 (Parallel Eq) r' := by
    induction m with
    | zero =>
      intro c c' _ hm
      omega
    | succ m ih =>
      rintro _ _ ⟨rfl, j, hj, rfl⟩ hm
      rw [hr j hj, hr' j hj]
      exact hbody ih (onward_abreast hj) hm
  exact (h _).eq_onward hi (Nat.lt_succ_self _)

/-- More rounds than there are characters ahead make no difference to a loop. -/
theorem upTo_eq_of_le {r : Rule Node}
    (h : r.InStep (onward text) (text.toList.length + 1) 1 (Parallel Eq) r)
    (hi : i ≤ text.toList.length) (hn : text.toList.length - i ≤ n) :
    r.upTo n (.inText text i) = r.upTo (text.toList.length - i) (.inText text i) := by
  have hl := length_rest_inText text i
  have ho := h.upTo (i := n) (j := text.toList.length - i) (onward_abreast hi)
    (by change (Cursor.inText text i).rest.length < _; omega)
    (by change (Cursor.inText text i).rest.length ≤ _; omega)
    (by change (Cursor.inText text i).rest.length ≤ _; omega)
  refine ho.eq fun as as' has ↦ ?_
  induction has with
  | nil => rfl
  | cons ha _ ih => rw [parallel_eq ha, ih]

end TypedLet.Grammar

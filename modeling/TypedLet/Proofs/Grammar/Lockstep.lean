import TypedLet.Grammar.Expression
import TypedLet.Proofs.Grammar.Pace
import TypedLet.Proofs.Node.Parallel

namespace TypedLet.Grammar

open Node Rule

variable {p : Pace} {limit m n n' : Nat} {a a' : Node} {as as' : List Node} {op : Op}
variable {mark word : List Char} {r r' : Rule Node}

section

variable (hp : p.Steady limit)

include hp

theorem parallel_foldl (ha : Parallel p.Over a a') (has : List.Forall₂ (Parallel p.Over) as as') :
    Parallel p.Over (as.foldl (fun a b ↦ .binary op a b (a.spanning b)) a)
      (as'.foldl (fun a b ↦ .binary op a b (a.spanning b)) a') := by
  induction has generalizing a a' with
  | nil => exact ha
  | cons hb _ ih => exact ih (.binary ha hb (ha.spanning hp.merge hb))

theorem parallel_arrows (ha : Parallel p.Over a a') (has : List.Forall₂ (Parallel p.Over) as as') :
    Parallel p.Over (arrows a as) (arrows a' as') := by
  induction has generalizing a a' with
  | nil => exact ha
  | cons hb _ ih => exact .funcType ha (ih hb) (ha.spanning hp.merge (ih hb))

theorem round_inStep (mark : List Char) [IsMark mark] [Visible mark]
    (h : r.InStep p m 1 (Parallel p.Over) r') :
    (do symbol mark; r : Rule Node).InStep p m 1 (Parallel p.Over) (do symbol mark; r') :=
  ((hp.symbol mark m).bind fun _ _ _ ↦ h.mono (Nat.sub_le m 1) (Nat.le_refl 1)).mono (Nat.le_refl m)
    (Nat.le_succ 1)

theorem baseType_inStep [IsKeyword word] {make : Option Span → Node}
    (hmake : ∀ {s s'}, Option.Rel p.Over s s' → Parallel p.Over (make s) (make s')) :
    (baseType word make).InStep p m 1 (Parallel p.Over) (baseType word make) :=
  ((hp.keyword word m).located hp).bind fun _ _ h ↦ inStep_return _ _ (hmake (.some h.2))

/-- What parentheses enclose is read behind the first of them. -/
theorem annotationAtom_inStep (h : r.InStep p m 1 (Parallel p.Over) r') :
    (annotationAtom r).InStep p (m + 1) 1 (Parallel p.Over) (annotationAtom r') := by
  have henclosed := (hp.symbol ['('] (m + 1)).bind fun _ _ _ ↦ h.bind fun _ _ ha ↦
    (hp.symbol [')'] (m - 1)).bind fun _ _ _ ↦ inStep_return _ _ ha
  apply InStep.firstOf hp
  exact .cons (baseType_inStep hp .intType) (.cons (baseType_inStep hp .boolType)
    (.cons (henclosed.mono (Nat.le_refl _) (by decide)) .nil))

theorem annotationBody_inStep (h : r.InStep p m 1 (Parallel p.Over) r') :
    (annotationBody r).InStep p (m + 1) 1 (Parallel p.Over) (annotationBody r') := by
  have ha := annotationAtom_inStep hp h
  have hround := round_inStep hp ['-', '>'] (ha.mono (Nat.le_succ m) (Nat.le_refl 1))
  exact ha.bind fun _ _ hhead ↦ (hround.many hp).bind fun _ _ htail ↦
    inStep_return _ _ (parallel_arrows hp hhead htail)

theorem annotationUpTo_inStep (hn : m ≤ n) (hn' : m ≤ n') :
    (annotationUpTo n).InStep p m 1 (Parallel p.Over) (annotationUpTo n') := by
  induction m generalizing n n' with
  | zero =>
    intro c c' _ hm
    omega
  | succ m ih =>
    obtain ⟨n, rfl⟩ : ∃ k, n = k + 1 := ⟨n - 1, by omega⟩
    obtain ⟨n', rfl⟩ : ∃ k, n' = k + 1 := ⟨n' - 1, by omega⟩
    exact annotationBody_inStep hp (ih (by omega) (by omega))

theorem annotationUpTo_inStep_annotation (hn : m ≤ n) :
    (annotationUpTo n).InStep p m 1 (Parallel p.Over) annotation := by
  intro c c' hc hm
  obtain ⟨-, hl⟩ := hp.ahead_le hc
  exact annotationUpTo_inStep hp (m := p.ahead c + 1) (by omega) (by omega) hc (by omega)

theorem annotation_inStep : annotation.InStep p m 1 (Parallel p.Over) annotation := by
  intro c c' hc hm
  obtain ⟨hl, -⟩ := hp.ahead_le hc
  exact annotationUpTo_inStep_annotation hp (m := p.ahead c + 1) (by omega) hc (by omega)

theorem chain_inStep [IsMark mark] [Visible mark] (h : r.InStep p m 1 (Parallel p.Over) r') :
    (chain op mark r).InStep p m 1 (Parallel p.Over) (chain op mark r') := by
  have hround := round_inStep hp mark (h.mono (Nat.sub_le m 1) (Nat.le_refl 1))
  exact h.bind fun _ _ hhead ↦ (hround.many hp).bind fun _ _ htail ↦
    inStep_return _ _ (parallel_foldl hp hhead htail)

theorem integer_inStep : (integer limit).InStep p m 1 (Parallel p.Over) (integer limit) := by
  apply ((hp.numeral m).located hp).bind (l := 0)
  rintro ⟨n, s⟩ ⟨_, s'⟩ ⟨rfl, hs⟩
  exact inStep_return _ _ (.intLit (.some hs))

theorem boolean_inStep : boolean.InStep p m 1 (Parallel p.Over) boolean := by
  have hword (word : List Char) [IsKeyword word] (b : Bool) :=
    (hp.keyword word m).bind fun _ _ _ ↦ inStep_return _ _ (Eq.refl b)
  have hwords := InStep.firstOf hp (.cons (hword trueWord true) (.cons (hword falseWord false) .nil))
  apply (hwords.located hp).bind (l := 0)
  rintro ⟨b, s⟩ ⟨_, s'⟩ ⟨rfl, hs⟩
  exact inStep_return _ _ (.boolLit (.some hs))

theorem reference_inStep : reference.InStep p m 1 (Parallel p.Over) reference := by
  apply ((hp.name m).located hp).bind (l := 0)
  rintro ⟨x, s⟩ ⟨_, s'⟩ ⟨rfl, hs⟩
  exact inStep_return _ _ (.var (.some hs))

theorem paren_inStep (h : r.InStep p m 1 (Parallel p.Over) r') :
    (paren r).InStep p (m + 1) 1 (Parallel p.Over) (paren r') := by
  have henclosed := (hp.symbol ['('] (m + 1)).bind fun _ _ _ ↦ h.bind fun _ _ ha ↦
    (hp.symbol [')'] (m - 1)).bind fun _ _ _ ↦ inStep_return _ _ ha
  apply ((henclosed.mono (Nat.le_refl _) (by decide)).located hp).bind (k := 1) (l := 0)
  rintro ⟨a, s⟩ ⟨a', s'⟩ ⟨ha, hs⟩
  exact inStep_return _ _ (.paren ha (.some hs))

theorem atom_inStep (h : r.InStep p m 1 (Parallel p.Over) r') :
    (atom limit r).InStep p (m + 1) 1 (Parallel p.Over) (atom limit r') := by
  apply InStep.firstOf hp
  exact .cons (integer_inStep hp) (.cons (boolean_inStep hp) (.cons (reference_inStep hp)
    (.cons (paren_inStep hp h) .nil)))

/-- Both sides of a binding are read behind a keyword. -/
theorem letIn_inStep (h : r.InStep p m 1 (Parallel p.Over) r') :
    (letIn r).InStep p (m + 1) 1 (Parallel p.Over) (letIn r') := by
  have hself {n : Nat} (hn : n ≤ m) := h.mono hn (Nat.le_refl 1)
  have hparts := (hp.keyword letWord (m + 1)).bind fun _ _ _ ↦ (hp.name _).bind fun x x' hx ↦
    (hp.symbol ['='] _).bind fun _ _ _ ↦ (hself (by omega)).bind fun a a' ha ↦
    (hp.keyword inWord _).bind fun _ _ _ ↦ (hself (by omega)).bind fun b b' hb ↦
    inStep_return (V := fun v v' ↦ v.1 = v'.1 ∧ Parallel p.Over v.2.1 v'.2.1 ∧
      Parallel p.Over v.2.2 v'.2.2) (x, a, b) (x', a', b') ⟨hx, ha, hb⟩
  apply ((hparts.mono (Nat.le_refl _) (by decide)).located hp).bind (k := 1) (l := 0)
  rintro ⟨⟨x, a, b⟩, s⟩ ⟨⟨_, a', b'⟩, s'⟩ ⟨⟨rfl, ha, hb⟩, hs⟩
  exact inStep_return _ _ (.letIn ha hb (.some hs))

theorem function_inStep (h : r.InStep p m 1 (Parallel p.Over) r') :
    (function r).InStep p (m + 1) 1 (Parallel p.Over) (function r') := by
  have hself {n : Nat} (hn : n ≤ m) := h.mono hn (Nat.le_refl 1)
  have hparts := (hp.keyword fnWord (m + 1)).bind fun _ _ _ ↦ (hp.symbol ['('] _).bind fun _ _ _ ↦
    ((hp.name _).located hp).bind fun x x' hx ↦ (hp.symbol [':'] _).bind fun _ _ _ ↦
    (annotation_inStep hp).bind fun t t' ht ↦ (hp.symbol [')'] _).bind fun _ _ _ ↦
    (hp.symbol ['=', '>'] _).bind fun _ _ _ ↦ (hself (by omega)).bind fun b b' hb ↦
    inStep_return (V := fun v v' ↦ (v.1.1 = v'.1.1 ∧ p.Over v.1.2 v'.1.2) ∧
      Parallel p.Over v.2.1 v'.2.1 ∧ Parallel p.Over v.2.2 v'.2.2)
      (x, t, b) (x', t', b') ⟨hx, ht, hb⟩
  apply ((hparts.mono (Nat.le_refl _) (by decide)).located hp).bind (k := 1) (l := 0)
  rintro ⟨⟨⟨x, xs⟩, t, b⟩, s⟩ ⟨⟨⟨_, xs'⟩, t', b'⟩, s'⟩ ⟨⟨⟨rfl, hx⟩, ht, hb⟩, hs⟩
  exact inStep_return _ _ (.fn ht hb (.some hx) (.some hs))

theorem expressionBody_inStep (h : r.InStep p m 1 (Parallel p.Over) r') :
    (expressionBody limit r).InStep p (m + 1) 1 (Parallel p.Over) (expressionBody limit r') := by
  apply InStep.firstOf hp
  apply List.Forall₂.cons (letIn_inStep hp h)
  apply List.Forall₂.cons (function_inStep hp h)
  exact .cons (chain_inStep hp (chain_inStep hp (chain_inStep hp (atom_inStep hp h)))) .nil

theorem expressionUpTo_inStep (hn : m ≤ n) (hn' : m ≤ n') :
    (expressionUpTo limit n).InStep p m 1 (Parallel p.Over) (expressionUpTo limit n') := by
  induction m generalizing n n' with
  | zero =>
    intro c c' _ hm
    omega
  | succ m ih =>
    obtain ⟨n, rfl⟩ : ∃ k, n = k + 1 := ⟨n - 1, by omega⟩
    obtain ⟨n', rfl⟩ : ∃ k, n' = k + 1 := ⟨n' - 1, by omega⟩
    exact expressionBody_inStep hp (ih (by omega) (by omega))

theorem expressionUpTo_inStep_expression (hn : m ≤ n) :
    (expressionUpTo limit n).InStep p m 1 (Parallel p.Over) (expression limit) := by
  intro c c' hc hm
  obtain ⟨-, hl⟩ := hp.ahead_le hc
  exact expressionUpTo_inStep hp (m := p.ahead c + 1) (by omega) (by omega) hc (by omega)

/-- Any two bounds on the depth that are as large as what lies ahead make no difference. -/
theorem expression_inStep : (expression limit).InStep p m 1 (Parallel p.Over) (expression limit) := by
  intro c c' hc hm
  obtain ⟨hl, -⟩ := hp.ahead_le hc
  exact expressionUpTo_inStep_expression hp (m := p.ahead c + 1) (by omega) hc (by omega)

end

end TypedLet.Grammar

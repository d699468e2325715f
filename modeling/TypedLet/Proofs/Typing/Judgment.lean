import TypedLet.Proofs.Typing.Environment

namespace TypedLet

/-- The typing rules. Nothing is said of trees that are no expressions. -/
inductive HasType : Env → Node → Ty → Prop
  | paren {env inner span ty} : HasType env inner ty → HasType env (.paren inner span) ty
  | var {env x span ty} : env x = some ty → HasType env (.var x span) ty
  | intLit {env n span} : HasType env (.intLit n span) .int
  | boolLit {env b span} : HasType env (.boolLit b span) .bool
  | conj {env a b span} : HasType env a .bool → HasType env b .bool →
      HasType env (.binary .conj a b span) .bool
  | equalInt {env a b span} : HasType env a .int → HasType env b .int →
      HasType env (.binary .equal a b span) .bool
  | equalBool {env a b span} : HasType env a .bool → HasType env b .bool →
      HasType env (.binary .equal a b span) .bool
  | sum {env a b span} : HasType env a .int → HasType env b .int →
      HasType env (.binary .sum a b span) .int
  | letIn {env x right body span a b} : HasType env right a → HasType (env.bind x a) body b →
      HasType env (.letIn x right body span) b
  | fn {env x type body paramSpan span a b} : type.toTy = .ok a → HasType (env.bind x a) body b →
      HasType env (.fn x type body paramSpan span) (.fn a b)

theorem bind_ok {ε α β : Type} {m : Except ε α} {f : α → Except ε β} {b : β}
    (h : m >>= f = .ok b) : ∃ a, m = .ok a ∧ f a = .ok b := by
  cases m with
  | error e => cases h
  | ok a => exact ⟨a, rfl, h⟩

theorem bind_error {ε α β : Type} {m : Except ε α} {f : α → Except ε β} {e : ε}
    (h : m >>= f = .error e) : m = .error e ∨ ∃ a, m = .ok a ∧ f a = .error e := by
  cases m with
  | error _ => exact .inl (by cases h; rfl)
  | ok a => exact .inr ⟨a, rfl, h⟩

theorem ok_bind {ε α β : Type} (a : α) (f : α → Except ε β) : (.ok a >>= f) = f a := rfl

theorem error_bind {ε α β : Type} (e : ε) (f : α → Except ε β) :
    (.error e >>= f) = .error e := rfl

theorem ok_mapError {ε δ α : Type} (a : α) (f : ε → δ) : (Except.ok a).mapError f = .ok a := rfl

theorem mapError_ok {ε δ α : Type} {m : Except ε α} {f : ε → δ} {a : α}
    (h : m.mapError f = .ok a) : m = .ok a := by
  cases m with
  | error e => cases h
  | ok b => cases h; rfl

theorem mapError_error {ε δ α : Type} {m : Except ε α} {f : ε → δ} {e : δ}
    (h : m.mapError f = .error e) : ∃ e', m = .error e' ∧ f e' = e := by
  cases m with
  | error e' => cases h; exact ⟨e', rfl, rfl⟩
  | ok a => cases h

theorem HasType.of_result {env : Env} {op : Op} {left right : Node} {span : Option Span}
    {a b ty : Ty} (hl : HasType env left a) (hr : HasType env right b)
    (h : op.result a b = some ty) : HasType env (.binary op left right span) ty := by
  unfold Op.result at h
  split at h <;> cases h
  · exact .conj hl hr
  · exact .equalInt hl hr
  · exact .equalBool hl hr
  · exact .sum hl hr

theorem HasType.of_typeIn {node : Node} {env : Env} {ty : Ty} (h : node.typeIn env = .ok ty) :
    HasType env node ty := by
  induction node generalizing env ty with
  | absent | intType | boolType | funcType => cases h
  | paren inner span ih => exact .paren (ih h)
  | var x span =>
    simp only [Node.typeIn] at h
    split at h <;> cases h
    next hx => exact .var hx
  | intLit n span => cases h; exact .intLit
  | boolLit b span => cases h; exact .boolLit
  | binary op left right span ihl ihr =>
    obtain ⟨a, ha, h⟩ := bind_ok h
    obtain ⟨b, hb, h⟩ := bind_ok h
    split at h <;> cases h
    next hr => exact .of_result (ihl ha) (ihr hb) hr
  | letIn x right body span ihr ihb =>
    obtain ⟨a, ha, h⟩ := bind_ok h
    exact .letIn (ihr ha) (ihb h)
  | fn x type body paramSpan span iht ihb =>
    obtain ⟨a, ha, h⟩ := bind_ok h
    obtain ⟨b, hb, h⟩ := bind_ok h
    cases h
    exact .fn (mapError_ok ha) (ihb hb)

theorem HasType.typeIn_eq {node : Node} {env : Env} {ty : Ty} (h : HasType env node ty) :
    node.typeIn env = .ok ty := by
  induction h with
  | paren _ ih => exact ih
  | var h => simp only [Node.typeIn, h]
  | intLit | boolLit => rfl
  | conj _ _ ihl ihr | equalInt _ _ ihl ihr | equalBool _ _ ihl ihr | sum _ _ ihl ihr =>
    simp only [Node.typeIn, ihl, ihr]
    rfl
  | letIn _ _ ihr ihb =>
    simp only [Node.typeIn, ihr]
    exact ihb
  | @fn env x type body _ _ a b ht _ ihb =>
    rw [Node.typeIn, ht]
    change (body.typeIn (env.bind x a) >>= fun b ↦ Except.ok (Ty.fn a b)) = _
    rw [ihb]
    rfl

theorem typeIn_eq_ok_iff {node : Node} {env : Env} {ty : Ty} :
    node.typeIn env = .ok ty ↔ HasType env node ty :=
  ⟨.of_typeIn, HasType.typeIn_eq⟩

theorem HasType.unique {node : Node} {env : Env} {a b : Ty} (ha : HasType env node a)
    (hb : HasType env node b) : a = b :=
  Except.ok.inj (ha.typeIn_eq.symm.trans hb.typeIn_eq)

theorem typeIn_error_iff {node : Node} {env : Env} :
    (∃ e, node.typeIn env = .error e) ↔ ¬ ∃ ty, HasType env node ty := by
  simp only [← typeIn_eq_ok_iff]
  cases node.typeIn env <;> simp

theorem check_eq_typeIn (node : Node) : node.check = node.typeIn .empty := by
  have h := node.infer_computes .empty
  rw [Scope.env_empty] at h
  rw [Node.check, h]
  cases node.typeIn .empty <;> rfl

/-- Typing decides the typing rules. On any scope it finds exactly the types that can be derived
from the names in sight and fails exactly where none can, no tree has two types in one
environment, and a whole program is typed as the rules type it with no name in sight. -/
theorem infer_decides_hasType :
    (∀ (s : Scope Ty) (node : Node) (ty : Ty),
      (∃ t, node.infer s = .ok ty t) ↔ HasType s.env node ty) ∧
    (∀ (s : Scope Ty) (node : Node),
      (∃ e t, node.infer s = .error e t) ↔ ¬ ∃ ty, HasType s.env node ty) ∧
    (∀ (env : Env) (node : Node) (a b : Ty), HasType env node a → HasType env node b → a = b) ∧
    (∀ (node : Node) (ty : Ty), node.check = .ok ty ↔ HasType .empty node ty) ∧
    (∀ node : Node, (∃ e, node.check = .error e) ↔ ¬ ∃ ty, HasType .empty node ty) := by
  refine ⟨fun s node ty ↦ ?_, fun s node ↦ ?_, fun _ _ _ _ ↦ HasType.unique, fun node ty ↦ ?_,
    fun node ↦ ?_⟩
  · rw [node.infer_computes s, ← typeIn_eq_ok_iff]
    cases node.typeIn s.env <;> simp [Check.settle]
  · rw [node.infer_computes s, ← typeIn_error_iff]
    cases node.typeIn s.env <;> simp [Check.settle]
  · rw [check_eq_typeIn, typeIn_eq_ok_iff]
  · rw [check_eq_typeIn, typeIn_error_iff]

end TypedLet

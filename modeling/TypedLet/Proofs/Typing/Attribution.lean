import TypedLet.Proofs.Node.Kind
import TypedLet.Proofs.Typing.Judgment

namespace TypedLet

/-- The operands that an operator takes, by their types. -/
inductive Op.Takes : Op → Ty → Ty → Prop
  | conj : Takes .conj .bool .bool
  | equalInt : Takes .equal .int .int
  | equalBool : Takes .equal .bool .bool
  | sum : Takes .sum .int .int

theorem Op.result_eq_none_iff {op : Op} {a b : Ty} : op.result a b = none ↔ ¬ op.Takes a b := by
  constructor
  · intro h ht
    cases ht <;> cases h
  · intro h
    unfold result
    split
    · exact absurd .conj h
    · exact absurd .equalInt h
    · exact absurd .equalBool h
    · exact absurd .sum h
    · rfl

/-- The part of a node that a path goes on to. -/
inductive Branch where
  | inner
  | left
  | right
  | body
deriving DecidableEq

namespace Node

/-- Typing a node comes to one of its parts, with these names in sight there. Whatever is typed
before that part has a type. -/
inductive Enters : Env → Node → Branch → Env → Node → Prop
  | inner {env e span} : Enters env (.paren e span) .inner env e
  | left {env op a b span} : Enters env (.binary op a b span) .left env a
  | right {env op a b span ty} : HasType env a ty → Enters env (.binary op a b span) .right env b
  | bound {env x a b span} : Enters env (.letIn x a b span) .right env a
  | body {env x a b span ty} : HasType env a ty →
      Enters env (.letIn x a b span) .body (env.bind x ty) b
  | result {env x type b paramSpan span ty} : type.toTy = .ok ty →
      Enters env (.fn x type b paramSpan span) .body (env.bind x ty) b

/-- A path from a node to a part of it at any depth, with the names in sight at both ends. -/
inductive Leads : Env → Node → List Branch → Env → Node → Prop
  | here {env e} : Leads env e [] env e
  | step {env env₁ env₂ e e₁ e₂ branch path} : Enters env e branch env₁ e₁ →
      Leads env₁ e₁ path env₂ e₂ → Leads env e (branch :: path) env₂ e₂

/-- What is wrong with a node whose parts are all in order: a name that is not in sight, operands
that the operator does not take, no expression at all, or an annotation with a part that is none. -/
inductive Faulty (env : Env) : Node → CheckError → Prop
  | unbound {x span} : env x = none → Faulty env (.var x span) (.illTyped (.unbound x (.var x span)))
  | mismatch {op left right span a b} : HasType env left a → HasType env right b →
      ¬ op.Takes a b → Faulty env (.binary op left right span)
        (.illTyped (.mismatch (.binary op left right span) [a, b] op.expected))
  | stray {n : Node} : n.isExpression = false → Faulty env n (.unsupported n)
  | refused {x type body paramSpan span n} :
      type.parts.find? (fun m ↦ !m.isTypeNode) = some n →
      Faulty env (.fn x type body paramSpan span) (.unsupported n)

variable {env env₁ env₂ : Env} {e e₁ e₂ n : Node} {branch branch' : Branch} {path path' : List Branch}
variable {err err' : CheckError} {ty : Ty}

/-- Reading the parts of an annotation from the left, the first that is no annotation is the one
that is refused. -/
theorem find?_parts (a : Node) : a.parts.find? (fun m ↦ !m.isTypeNode) =
    match a.toTy with
    | .ok _ => none
    | .error n => some n := by
  induction a with
  | funcType a b _ iha ihb =>
    rw [parts, List.find?_cons_of_neg (by simp [isTypeNode]), List.find?_append, iha, ihb, toTy]
    cases a.toTy <;> cases b.toTy <;> rfl
  | _ => rfl

theorem toTy_error_iff {a : Node} :
    a.toTy = .error n ↔ a.parts.find? (fun m ↦ !m.isTypeNode) = some n := by
  rw [find?_parts]
  cases a.toTy <;> simp

theorem Faulty.typeIn_eq (h : Faulty env e err) : e.typeIn env = .error err := by
  cases h with
  | unbound h => simp only [typeIn, h]
  | mismatch ha hb h =>
    simp only [typeIn, ha.typeIn_eq, hb.typeIn_eq, ok_bind, Op.result_eq_none_iff.mpr h]
  | stray h => cases e <;> first | rfl | cases h
  | refused h =>
    rw [typeIn, toTy_error_iff.mpr h]
    rfl

theorem Enters.typeIn_eq (h : Enters env e branch env₁ e₁) (he : e₁.typeIn env₁ = .error err) :
    e.typeIn env = .error err := by
  cases h with
  | inner => exact he
  | left | bound => rw [typeIn, he, error_bind]
  | right h => rw [typeIn, h.typeIn_eq, ok_bind, he, error_bind]
  | body h => rw [typeIn, h.typeIn_eq, ok_bind, he]
  | result h => simp only [typeIn, h, ok_mapError, ok_bind, he, error_bind]

theorem Leads.typeIn_eq (h : Leads env e path env₁ n) (hn : Faulty env₁ n err) :
    e.typeIn env = .error err := by
  induction h with
  | here => exact hn.typeIn_eq
  | step h _ ih => exact h.typeIn_eq (ih hn)

theorem Enters.exists_faulty (h : Enters env e branch env₁ e₁)
    (h₁ : ∃ path env₂ n, Leads env₁ e₁ path env₂ n ∧ Faulty env₂ n err) :
    ∃ path env₂ n, Leads env e path env₂ n ∧ Faulty env₂ n err := by
  obtain ⟨path, env₂, n, hpath, hn⟩ := h₁
  exact ⟨branch :: path, env₂, n, .step h hpath, hn⟩

/-- Typing that fails has met a fault on its way. -/
theorem exists_faulty (h : e.typeIn env = .error err) :
    ∃ path env₁ n, Leads env e path env₁ n ∧ Faulty env₁ n err := by
  induction e generalizing env with
  | absent | intType | boolType | funcType =>
    cases h
    exact ⟨[], env, _, .here, .stray rfl⟩
  | intLit | boolLit => cases h
  | var x span =>
    simp only [typeIn] at h
    split at h
    · cases h
    next hx =>
      cases h
      exact ⟨[], env, _, .here, .unbound hx⟩
  | paren inner span ih => exact Enters.inner.exists_faulty (ih h)
  | binary op left right span ihl ihr =>
    rcases bind_error h with h | ⟨a, ha, h⟩
    · exact Enters.left.exists_faulty (ihl h)
    have ha := HasType.of_typeIn ha
    rcases bind_error h with h | ⟨b, hb, h⟩
    · exact (Enters.right ha).exists_faulty (ihr h)
    split at h
    · cases h
    next hop =>
      cases h
      exact ⟨[], env, _, .here, .mismatch ha (.of_typeIn hb) (Op.result_eq_none_iff.mp hop)⟩
  | letIn x right body span ihr ihb =>
    rcases bind_error h with h | ⟨a, ha, h⟩
    · exact Enters.bound.exists_faulty (ihr h)
    · exact (Enters.body (.of_typeIn ha)).exists_faulty (ihb h)
  | fn x type body paramSpan span _ ihb =>
    rcases bind_error h with h | ⟨a, ha, h⟩
    · obtain ⟨part, hpart, rfl⟩ := mapError_error h
      exact ⟨[], env, _, .here, .refused (toTy_error_iff.mp hpart)⟩
    rcases bind_error h with h | ⟨b, -, h⟩
    · exact (Enters.result (mapError_ok ha)).exists_faulty (ihb h)
    · cases h

theorem typeIn_error_iff_faulty :
    e.typeIn env = .error err ↔ ∃ path env₁ n, Leads env e path env₁ n ∧ Faulty env₁ n err := by
  refine ⟨exists_faulty, fun h ↦ ?_⟩
  obtain ⟨path, env₁, n, hpath, hn⟩ := h
  exact hpath.typeIn_eq hn

theorem not_error (h : HasType env e ty) : e.typeIn env ≠ .error err := by
  rw [h.typeIn_eq]
  nofun

/-- A fault of a node itself is met only when its parts are in order. -/
theorem Faulty.not_enters (h : Faulty env e err) (he : Enters env e branch env₁ e₁) :
    e₁.typeIn env₁ ≠ .error err' := by
  cases he with
  | inner | bound | body => cases h with | stray h => cases h
  | left =>
    cases h with
    | stray h => cases h
    | mismatch ha _ _ => exact not_error ha
  | right =>
    cases h with
    | stray h => cases h
    | mismatch _ hb _ => exact not_error hb
  | result ht =>
    cases h with
    | stray h => cases h
    | refused h =>
      rw [toTy_error_iff.mpr h] at ht
      cases ht

/-- Only one of the parts that typing comes to can be the one where it fails. -/
theorem Enters.unique (h : Enters env e branch env₁ e₁) (h' : Enters env e branch' env₂ e₂)
    (he : e₁.typeIn env₁ = .error err) (he' : e₂.typeIn env₂ = .error err') :
    branch = branch' ∧ env₁ = env₂ ∧ e₁ = e₂ := by
  cases h with
  | inner => cases h'; exact ⟨rfl, rfl, rfl⟩
  | left =>
    cases h' with
    | left => exact ⟨rfl, rfl, rfl⟩
    | right ha => exact absurd he (not_error ha)
  | right ha =>
    cases h' with
    | left => exact absurd he' (not_error ha)
    | right => exact ⟨rfl, rfl, rfl⟩
  | bound =>
    cases h' with
    | bound => exact ⟨rfl, rfl, rfl⟩
    | body ha => exact absurd he (not_error ha)
  | body ha =>
    cases h' with
    | bound => exact absurd he' (not_error ha)
    | body hb =>
      obtain rfl := ha.unique hb
      exact ⟨rfl, rfl, rfl⟩
  | result ha =>
    cases h' with
    | result hb =>
      obtain rfl := Except.ok.inj (ha.symm.trans hb)
      exact ⟨rfl, rfl, rfl⟩

/-- There is one path to a fault only. -/
theorem Leads.unique (h : Leads env e path env₁ e₁) (hn : Faulty env₁ e₁ err)
    (h' : Leads env e path' env₂ e₂) (hn' : Faulty env₂ e₂ err') :
    path = path' ∧ env₁ = env₂ ∧ e₁ = e₂ := by
  induction h generalizing path' with
  | here =>
    cases h' with
    | here => exact ⟨rfl, rfl, rfl⟩
    | step he h' => exact absurd (h'.typeIn_eq hn') (hn.not_enters he)
  | step he h ih =>
    cases h' with
    | here => exact absurd (h.typeIn_eq hn) (hn'.not_enters he)
    | step he' h' =>
      obtain ⟨rfl, rfl, rfl⟩ := he.unique he' (h.typeIn_eq hn) (h'.typeIn_eq hn')
      obtain ⟨rfl, rfl, rfl⟩ := ih hn h'
      exact ⟨rfl, rfl, rfl⟩

end Node

open Node

/-- Typing a tree on any scope fails exactly where a path through all that is typed before leads to
a fault, with the names in sight there that the binders on the path make, and it fails with the
error of that fault. No tree has two such paths. -/
theorem infer_error_attributed :
    (∀ (s : Scope Ty) (e : Node) (err : CheckError), (∃ t, e.infer s = .error err t) ↔
      ∃ path env n, Leads s.env e path env n ∧ Faulty env n err) ∧
    ∀ (env : Env) (e : Node) (path path' : List Branch) (env₁ env₂ : Env) (n n' : Node)
      (err err' : CheckError), Leads env e path env₁ n → Faulty env₁ n err →
      Leads env e path' env₂ n' → Faulty env₂ n' err' →
      path = path' ∧ env₁ = env₂ ∧ n = n' ∧ err = err' := by
  refine ⟨fun s e err ↦ ?_, fun env e path path' env₁ env₂ n n' err err' h hn h' hn' ↦ ?_⟩
  · simp only [infer_error_iff, exists_and_left, exists_eq, and_true, typeIn_error_iff_faulty]
  · obtain ⟨hpath, henv, hnode⟩ := h.unique hn h' hn'
    have herr := (h.typeIn_eq hn).symm.trans (h'.typeIn_eq hn')
    exact ⟨hpath, henv, hnode, Except.error.inj herr⟩

theorem operands_attributed :
    Leads .empty (.letIn "x" (.boolLit true none) (.paren (.fn "y" (.intType none)
        (.binary .conj (.var "x" none) (.var "y" none) none) none none) none) none)
      [.body, .inner, .body] ((Env.empty.bind "x" .bool).bind "y" .int)
      (.binary .conj (.var "x" none) (.var "y" none) none) ∧
    ∃ t, Node.infer (.letIn "x" (.boolLit true none) (.paren (.fn "y" (.intType none)
        (.binary .conj (.var "x" none) (.var "y" none) none) none none) none) none) .empty =
      .error (.illTyped (.mismatch (.binary .conj (.var "x" none) (.var "y" none) none)
        [.bool, .int] "(Bool, Bool)")) t := by
  have hpath : Leads .empty (.letIn "x" (.boolLit true none) (.paren (.fn "y" (.intType none)
      (.binary .conj (.var "x" none) (.var "y" none) none) none none) none) none)
      [.body, .inner, .body] ((Env.empty.bind "x" .bool).bind "y" .int)
      (.binary .conj (.var "x" none) (.var "y" none) none) :=
    .step (.body .boolLit) (.step .inner (.step (.result rfl) .here))
  have hn : Faulty ((Env.empty.bind "x" .bool).bind "y" .int)
      (.binary .conj (.var "x" none) (.var "y" none) none) _ :=
    .mismatch (.var rfl) (.var rfl) nofun
  exact ⟨hpath, (infer_error_attributed.1 .empty _ _).mpr ⟨_, _, _, hpath, hn⟩⟩

end TypedLet

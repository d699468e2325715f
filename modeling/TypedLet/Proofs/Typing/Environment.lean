import TypedLet.Typing.Program

namespace TypedLet

/-- The types of the names in sight, as a value that nothing changes. -/
def Env : Type := String → Option Ty

namespace Env

def empty : Env := fun _ ↦ none

def bind (env : Env) (name : String) (ty : Ty) : Env :=
  fun other ↦ if other = name then some ty else env other

variable {env : Env} {name other : String} {ty : Ty}

theorem bind_self : env.bind name ty name = some ty := if_pos rfl

theorem bind_of_ne (h : other ≠ name) : env.bind name ty other = env other := if_neg h

end Env

def Scope.env (s : Scope Ty) : Env := s.get?

theorem Scope.env_empty : (empty : Scope Ty).env = Env.empty := rfl

theorem Scope.env_insert (s : Scope Ty) (name : String) (ty : Ty) :
    (s.insert name ty).env = s.env.bind name ty :=
  funext fun other ↦ s.get?_insert name other ty

/-- The type of an expression in an environment that is handed down from a node to its parts. -/
def Node.typeIn : Node → Env → Except CheckError Ty
  | .paren inner _, env => inner.typeIn env
  | .var x span, env =>
    match env x with
    | some ty => .ok ty
    | none => .error (.illTyped (.unbound x (.var x span)))
  | .intLit .., _ => .ok .int
  | .boolLit .., _ => .ok .bool
  | .binary op left right span, env => do
    let a ← left.typeIn env
    let b ← right.typeIn env
    match op.result a b with
    | some ty => .ok ty
    | none => .error (.illTyped (.mismatch (.binary op left right span) [a, b] op.expected))
  | .letIn x right body _, env => do
    let a ← right.typeIn env
    body.typeIn (env.bind x a)
  | .fn x type body _ _, env => do
    let a ← type.toTy.mapError .unsupported
    let b ← body.typeIn (env.bind x a)
    return .fn a b
  | other, _ => .error (.unsupported other)

namespace Check

variable {α β : Type}

/-- How a computation ends that leaves the scope as it was, whether it succeeds or fails. -/
def settle (s : Scope Ty) : Except CheckError α → EStateM.Result CheckError (Scope Ty) α
  | .ok a => .ok a s
  | .error e => .error e s

/-- A computation that depends on the scope only through the environment in it, and that leaves
the scope as it was. -/
def Computes (m : Check α) (f : Env → Except CheckError α) : Prop := ∀ s, m s = settle s (f s.env)

theorem computes_return (a : α) : Computes (return a) fun _ ↦ .ok a := fun _ ↦ rfl

theorem computes_throw (e : CheckError) : Computes (throw e : Check α) fun _ ↦ .error e :=
  fun _ ↦ rfl

theorem Computes.bind {m : Check α} {f : Env → Except CheckError α} {k : α → Check β}
    {g : α → Env → Except CheckError β} (hm : Computes m f) (hk : ∀ a, Computes (k a) (g a)) :
    Computes (m >>= k) fun env ↦ f env >>= fun a ↦ g a env := by
  intro s
  have hs : (m >>= k) s = match m s with
      | .ok a t => k a t
      | .error e t => .error e t := by
    simp only [Bind.bind, EStateM.bind]
    cases m s <;> rfl
  change _ = settle s (f s.env >>= fun a ↦ g a s.env)
  rw [hs, hm s]
  cases f s.env with
  | error e => rfl
  | ok a => exact hk a s

theorem computes_lookup (name : String) (node : Node) :
    Computes (lookup name node) fun env ↦ match env name with
      | some ty => .ok ty
      | none => .error (.illTyped (.unbound name node)) := by
  intro s
  change (match s.get? name with
    | some ty => (return ty : Check Ty)
    | none => throw (CheckError.illTyped (.unbound name node))) s =
      settle s (match s.get? name with
        | some ty => .ok ty
        | none => .error (.illTyped (.unbound name node)))
  cases s.get? name <;> rfl

theorem computes_apply (op : Op) (a b : Ty) (node : Node) :
    Computes (apply op a b node) fun _ ↦ match op.result a b with
      | some ty => .ok ty
      | none => .error (.illTyped (.mismatch node [a, b] op.expected)) := by
  unfold apply
  cases op.result a b with
  | none => exact computes_throw _
  | some ty => exact computes_return ty

theorem computes_annotation (node : Node) :
    Computes ( annotation node) fun _ ↦ node.toTy.mapError .unsupported := by
  unfold annotation
  cases node.toTy with
  | error part => exact computes_throw _
  | ok ty => exact computes_return ty

/-- Leaving a scope undoes exactly the binding that was made on entering it, also when the body
fails. -/
theorem Computes.within {body : Check α} {f : Env → Except CheckError α} (h : Computes body f)
    (name : String) (ty : Ty) :
    Computes (within name ty body) fun env ↦ f (env.bind name ty) := by
  intro s
  have hb := h (s.insert name ty)
  rw [Scope.env_insert] at hb
  have hw : Check.within name ty body s =
      Scope.leave .rollback s.depth (body (s.insert name ty)) := rfl
  change _ = settle s (f (s.env.bind name ty))
  rw [hw, hb]
  cases f (s.env.bind name ty) <;> simp only [settle, Scope.leave, Scope.unwind_insert]

end Check

/-- Typing over the one scope that is changed and restored, and typing in an environment that is
handed down, agree on every tree. -/
theorem Node.infer_computes (node : Node) : node.infer.Computes node.typeIn := by
  induction node with
  | absent | intType | boolType | funcType => exact Check.computes_throw _
  | paren inner span ih => exact ih
  | var x span => exact Check.computes_lookup x _
  | intLit value span => exact Check.computes_return _
  | boolLit value span => exact Check.computes_return _
  | binary op left right span ihl ihr =>
    exact ihl.bind fun a ↦ ihr.bind fun b ↦ Check.computes_apply op a b _
  | letIn x right body span ihr ihb => exact ihr.bind fun a ↦ ihb.within x a
  | fn x type body paramSpan span iht ihb =>
    have ht := Check.computes_annotation type
    exact ht.bind fun a ↦ (ihb.within x a).bind fun b ↦ Check.computes_return _

theorem Node.infer_ok_iff {node : Node} {s t : Scope Ty} {ty : Ty} :
    node.infer s = .ok ty t ↔ node.typeIn s.env = .ok ty ∧ t = s := by
  rw [node.infer_computes s]
  cases node.typeIn s.env <;> simp [Check.settle, eq_comm]

theorem Node.infer_error_iff {node : Node} {s t : Scope Ty} {err : CheckError} :
    node.infer s = .error err t ↔ node.typeIn s.env = .error err ∧ t = s := by
  rw [node.infer_computes s]
  cases node.typeIn s.env <;> simp [Check.settle, eq_comm]

/-- Typing a tree on any scope, whatever its table and its journal hold, ends as typing it in the
environment that the table gives does, with the same type or the same error, and leaves the scope
exactly as it was. -/
theorem infer_eq_typeIn (s : Scope Ty) (node : Node) :
    node.infer s = match node.typeIn s.env with
      | .ok ty => .ok ty s
      | .error e => .error e s := by
  rw [node.infer_computes s]
  cases node.typeIn s.env <;> rfl

end TypedLet

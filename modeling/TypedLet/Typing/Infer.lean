import TypedLet.Node.Annotation
import TypedLet.Typing.Error

namespace TypedLet

/-- The type of an operator's result, if it takes operands of these types. Functions are never
comparable. -/
def Op.result : Op → Ty → Ty → Option Ty
  | .conj, .bool, .bool => some .bool
  | .equal, .int, .int => some .bool
  | .equal, .bool, .bool => some .bool
  | .sum, .int, .int => some .int
  | _, _, _ => none

def Op.expected : Op → String
  | .conj => "(Bool, Bool)"
  | .equal => "(Int, Int) or (Bool, Bool)"
  | .sum => "(Int, Int)"

/-- Typing under the names in sight, which an error leaves as they then are. -/
abbrev Check := EStateM CheckError (Scope Ty)

namespace Check

variable {α : Type}

def within (name : String) (ty : Ty) (body : Check α) : Check α :=
  Scope.within .rollback name ty body

def lookup (name : String) (node : Node) : Check Ty := do
  match (← get).get? name with
  | some ty => return ty
  | none => throw (.illTyped (.unbound name node))

def apply (op : Op) (a b : Ty) (node : Node) : Check Ty :=
  match op.result a b with
  | some ty => return ty
  | none => throw (.illTyped (.mismatch node [a, b] op.expected))

def annotation (node : Node) : Check Ty :=
  match node.toTy with
  | .ok ty => return ty
  | .error part => throw (.unsupported part)

end Check

/-- The type of an expression. Operands are typed from the left, and a binder's body with its
name in sight. -/
def Node.infer : Node → Check Ty
  | .paren inner _ => inner.infer
  | .var x span => Check.lookup x (.var x span)
  | .intLit .. => return .int
  | .boolLit .. => return .bool
  | .binary op left right span => do
    let a ← left.infer
    let b ← right.infer
    Check.apply op a b (.binary op left right span)
  | .letIn x right body _ => do
    let a ← right.infer
    Check.within x a body.infer
  | .fn x type body _ _ => do
    let a ← Check.annotation type
    let b ← Check.within x a body.infer
    return .fn a b
  | other => throw (.unsupported other)

end TypedLet

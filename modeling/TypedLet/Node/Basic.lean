import TypedLet.Span.Basic
import TypedLet.Ty

namespace TypedLet

inductive Op where
  | conj
  | equal
  | sum
deriving DecidableEq

/-- A syntax tree, of a program or of a type annotation. Nothing keeps one kind from standing
where the other belongs, or from being absent. -/
inductive Node where
  | absent
  | intType (span : Option Span)
  | boolType (span : Option Span)
  | funcType (left right : Node) (span : Option Span)
  | paren (inner : Node) (span : Option Span)
  | var (name : String) (span : Option Span)
  | intLit (value : Int) (span : Option Span)
  | boolLit (value : Bool) (span : Option Span)
  | binary (op : Op) (left right : Node) (span : Option Span)
  | letIn (name : String) (right body : Node) (span : Option Span)
  | fn (param : String) (paramType body : Node) (paramSpan span : Option Span)
deriving DecidableEq

namespace Node

def span : Node → Option Span
  | absent => none
  | intType s | boolType s | funcType _ _ s | paren _ s | var _ s | intLit _ s | boolLit _ s
  | binary _ _ _ s | letIn _ _ _ s | fn _ _ _ _ s => s

def erase : Node → Node
  | absent => absent
  | intType _ => intType none
  | boolType _ => boolType none
  | funcType a b _ => funcType a.erase b.erase none
  | paren a _ => paren a.erase none
  | var x _ => var x none
  | intLit n _ => intLit n none
  | boolLit b _ => boolLit b none
  | binary op a b _ => binary op a.erase b.erase none
  | letIn x a b _ => letIn x a.erase b.erase none
  | fn x t b _ _ => fn x t.erase b.erase none none

def same (a b : Node) : Bool := a.erase == b.erase

/-- From the beginning of one part to the end of another. -/
def spanning (left right : Node) : Option Span :=
  left.span.bind fun a ↦ right.span.map fun b ↦ a.merge b

theorem erase_erase (a : Node) : a.erase.erase = a.erase := by
  induction a <;> simp_all [erase]

theorem span_erase (a : Node) : a.erase.span = none := by cases a <;> rfl

theorem same_iff {a b : Node} : a.same b ↔ a.erase = b.erase := by simp [same]

end Node

end TypedLet

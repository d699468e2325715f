import TypedLet.Node.Basic
import TypedLet.Text.Decimal
import TypedLet.Text.Form
import TypedLet.Text.Quoted

namespace TypedLet

open Text

def Op.label : Op → String
  | .conj => "And"
  | .equal => "Eq"
  | .sum => "Add"

namespace Node

def label : Node → String
  | absent => "NoneType"
  | intType _ => "IntType"
  | boolType _ => "BoolType"
  | funcType .. => "FuncType"
  | paren .. => "Paren"
  | var .. => "Var"
  | intLit .. => "IntLiteral"
  | boolLit .. => "BoolLiteral"
  | binary op .. => op.label
  | letIn .. => "Let"
  | fn .. => "Function"

/-- The tree in constructor form, without its places. -/
def written : Node → String
  | absent => "None"
  | intType _ => form "IntType" []
  | boolType _ => form "BoolType" []
  | funcType a b _ => form "FuncType" [("left", a.written), ("right", b.written)]
  | paren a _ => form "Paren" [("inner", a.written)]
  | var x _ => form "Var" [("name", quote x)]
  | intLit n _ => form "IntLiteral" [("value", decimal n)]
  | boolLit b _ => form "BoolLiteral" [("value", truth b)]
  | binary op a b _ => form op.label [("left", a.written), ("right", b.written)]
  | letIn x a b _ => form "Let" [("name", quote x), ("right", a.written), ("body", b.written)]
  | fn x t b _ _ =>
    form "Function" [("param", quote x), ("param_type", t.written), ("body", b.written)]

theorem label_erase (a : Node) : a.erase.label = a.label := by
  cases a <;> simp only [erase, label]

end Node

end TypedLet

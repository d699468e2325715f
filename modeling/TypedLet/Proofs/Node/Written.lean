import TypedLet.Node.Written
import TypedLet.Proofs.Text.Form

namespace TypedLet

open Text

variable {x y : List Char}

namespace Node

variable {a b : Node}

/-- Two nodes of one class whose parts are alike and whose names, numbers and truth values are the
same. Where they stand is not compared. -/
inductive Alike : Node → Node → Prop
  | absent : Alike .absent .absent
  | intType {s s'} : Alike (.intType s) (.intType s')
  | boolType {s s'} : Alike (.boolType s) (.boolType s')
  | funcType {a a' b b' s s'} : Alike a a' → Alike b b' →
      Alike (.funcType a b s) (.funcType a' b' s')
  | paren {a a' s s'} : Alike a a' → Alike (.paren a s) (.paren a' s')
  | var {x s s'} : Alike (.var x s) (.var x s')
  | intLit {n s s'} : Alike (.intLit n s) (.intLit n s')
  | boolLit {b s s'} : Alike (.boolLit b s) (.boolLit b s')
  | binary {op a a' b b' s s'} : Alike a a' → Alike b b' →
      Alike (.binary op a b s) (.binary op a' b' s')
  | letIn {x a a' b b' s s'} : Alike a a' → Alike b b' →
      Alike (.letIn x a b s) (.letIn x a' b' s')
  | fn {x t t' b b' p p' s s'} : Alike t t' → Alike b b' →
      Alike (.fn x t b p s) (.fn x t' b' p' s')

end Node

namespace Ty

variable {a b : Ty}

end Ty

end TypedLet

import TypedLet.Node.Written
import TypedLet.Scope.Basic

namespace TypedLet

/-- Why a tree has no type: a name that is not in sight, or an operator whose operands are not
of the types it takes. -/
inductive TypeError where
  | unbound (name : String) (node : Node)
  | mismatch (node : Node) (actual : List Ty) (expected : String)
deriving DecidableEq

namespace TypeError

def node : TypeError → Node
  | unbound _ n => n
  | mismatch n _ _ => n

def kind : TypeError → String
  | unbound .. => "UnboundVariable"
  | mismatch .. => "TypeMismatch"

def message : TypeError → String
  | unbound x _ => "Unbound variable " ++ x
  | mismatch n actual expected =>
    n.label ++ " expects " ++ expected ++ ", got (" ++ ", ".intercalate (actual.map Ty.text) ++ ")"

end TypeError

/-- How typing a tree can fail: the tree has no type, a part of it stands where nothing of its
kind belongs, or the names in sight cannot be restored. -/
inductive CheckError where
  | illTyped (error : TypeError)
  | unsupported (node : Node)
  | rollback (cause : Fault)
deriving DecidableEq

def CheckError.message : CheckError → String
  | illTyped e => e.message
  | unsupported n => n.written
  | rollback cause => cause.message

end TypedLet

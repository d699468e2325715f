import TypedLet.Text.Form

namespace TypedLet

inductive Ty where
  | int
  | bool
  | fn (domain codomain : Ty)
deriving DecidableEq

namespace Ty

/-- The type as it is read back, with every function type in parentheses. -/
def text : Ty → String
  | int => "Int"
  | bool => "Bool"
  | fn a b => "(" ++ a.text ++ " -> " ++ b.text ++ ")"

def written : Ty → String
  | int => Text.form "Int" []
  | bool => Text.form "Bool" []
  | fn a b => Text.form "Function" [("domain", a.written), ("codomain", b.written)]

end Ty

end TypedLet

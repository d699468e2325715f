import TypedLet.Grammar.Source
import TypedLet.Typing.Infer

namespace TypedLet

inductive Failure where
  | unreadable (error : ParseError)
  | rejected (error : CheckError)
deriving DecidableEq

def Node.check (node : Node) : Except CheckError Ty :=
  match node.infer .empty with
  | .ok ty _ => .ok ty
  | .error e _ => .error e

def checkSource (source : String) : Except Failure Ty := do
  let node ← (Grammar.readExpression source).mapError .unreadable
  node.check.mapError .rejected

def readTy (source : String) : Except Failure Ty := do
  let node ← (Grammar.readAnnotation source).mapError .unreadable
  node.toTy.mapError fun part ↦ .rejected (.unsupported part)

end TypedLet

import TypedLet.Node.Basic

namespace TypedLet

/-- What a part is to the node that it belongs to. -/
inductive Field where
  | inner
  | left
  | right
  | body
  | paramType
deriving DecidableEq

namespace Node

def part? : Node → Field → Option Node
  | paren a _, .inner => some a
  | funcType a _ _, .left => some a
  | funcType _ b _, .right => some b
  | binary _ a _ _, .left => some a
  | binary _ _ b _, .right => some b
  | letIn _ a _ _, .right => some a
  | letIn _ _ b _, .body => some b
  | fn _ t _ _ _, .paramType => some t
  | fn _ _ b _ _, .body => some b
  | _, _ => none

/-- The part of a tree at a position, which is the way that leads down to it. -/
def at? : Node → List Field → Option Node
  | a, [] => some a
  | a, field :: position => (a.part? field).bind fun b ↦ b.at? position

variable {a b : Node} {field : Field} {position : List Field}

theorem at?_nil (a : Node) : a.at? [] = some a := rfl

theorem at?_cons (h : a.part? field = some b) :
    a.at? (field :: position) = b.at? position := by
  rw [at?, h, Option.bind_some]

end Node

end TypedLet

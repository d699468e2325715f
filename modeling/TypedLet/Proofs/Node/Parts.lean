import TypedLet.Node.Basic

namespace TypedLet.Node

/-- All nodes of a tree, expressions and annotations, at any depth and with the tree itself. -/
def parts : Node → List Node
  | funcType a b s => funcType a b s :: (a.parts ++ b.parts)
  | paren a s => paren a s :: a.parts
  | binary op a b s => binary op a b s :: (a.parts ++ b.parts)
  | letIn x a b s => letIn x a b s :: (a.parts ++ b.parts)
  | fn x t b p s => fn x t b p s :: (t.parts ++ b.parts)
  | a => [a]

/-- The node is said to stand in a text from `i` to `j`. -/
def At (text : String) (n : Node) (i j : Nat) : Prop := n.span = some ⟨text, i, j⟩

end TypedLet.Node

import TypedLet.Node.Basic

namespace TypedLet

/-- The same stretch of a text of which `offset` characters have been cut off in front. -/
def Span.moved (src : String) (offset : Int) (a : Span) : Span :=
  ⟨src, a.start - offset, a.stop - offset⟩

theorem Span.moved_merge (src : String) (offset : Int) (a b : Span) :
    (a.merge b).moved src offset = (a.moved src offset).merge (b.moved src offset) := by
  simp only [moved, merge, Span.mk.injEq, true_and]
  omega

namespace Node

def mapSpans (f : Span → Span) : Node → Node
  | absent => absent
  | intType s => intType (s.map f)
  | boolType s => boolType (s.map f)
  | funcType a b s => funcType (a.mapSpans f) (b.mapSpans f) (s.map f)
  | paren a s => paren (a.mapSpans f) (s.map f)
  | var x s => var x (s.map f)
  | intLit n s => intLit n (s.map f)
  | boolLit b s => boolLit b (s.map f)
  | binary op a b s => binary op (a.mapSpans f) (b.mapSpans f) (s.map f)
  | letIn x a b s => letIn x (a.mapSpans f) (b.mapSpans f) (s.map f)
  | fn x t b p s => fn x (t.mapSpans f) (b.mapSpans f) (p.map f) (s.map f)

/-- The expressions in a tree, at any depth and with the tree itself. -/
def expressions : Node → List Node
  | paren a s => paren a s :: a.expressions
  | binary op a b s => binary op a b s :: (a.expressions ++ b.expressions)
  | letIn x a b s => letIn x a b s :: (a.expressions ++ b.expressions)
  | fn x t b p s => fn x t b p s :: b.expressions
  | a => [a]

variable {f : Span → Span}

theorem erase_mapSpans (f : Span → Span) (a : Node) : (a.mapSpans f).erase = a.erase := by
  induction a <;> simp_all only [mapSpans, erase]

theorem span_mapSpans (f : Span → Span) (a : Node) : (a.mapSpans f).span = a.span.map f := by
  cases a <;> rfl

theorem spanning_mapSpans (hf : ∀ a b, f (a.merge b) = (f a).merge (f b)) (a b : Node) :
    (a.spanning b).map f = (a.mapSpans f).spanning (b.mapSpans f) := by
  rw [spanning, spanning, span_mapSpans, span_mapSpans]
  cases a.span with
  | none => rfl
  | some s =>
    cases b.span with
    | none => rfl
    | some s' => simp [hf]

end Node

end TypedLet

import TypedLet.Grammar.Source
import TypedLet.Proofs.Grammar.Exclusion

namespace TypedLet.Grammar

open Rule

/-- A way of trying alternatives in another order. -/
structure Rearrangement (α : Type) where
  apply : List (Rule α) → List (Rule α)
  perm (rs : List (Rule α)) : (apply rs).Perm rs

/-- In which order the alternatives of each rule are tried. -/
structure Order where
  expressions : Rearrangement Node
  atoms : Rearrangement Node
  booleans : Rearrangement Bool
  annotations : Rearrangement Node

namespace Order

/-! The grammar, with the alternatives of its rules in any order. -/

variable (o : Order)

def annotationAtom (self : Rule Node) : Rule Node :=
  firstOf <| o.annotations.apply [baseType intWord .intType, baseType boolWord .boolType, do
    symbol ['(']
    let inner ← self
    symbol [')']
    return inner]

def annotationBody (self : Rule Node) : Rule Node := do
  let head ← o.annotationAtom self
  let tail ← many do
    symbol ['-', '>']
    o.annotationAtom self
  return arrows head tail

def annotationUpTo : Nat → Rule Node
  | 0 => fun c ↦ .failed c.pos
  | n + 1 => o.annotationBody (annotationUpTo n)

def annotation : Rule Node := fun c ↦ o.annotationUpTo (c.rest.length + 1) c

def boolean : Rule Node := do
  let (value, span) ← located <| firstOf <| o.booleans.apply [
    do keyword trueWord; return true,
    do keyword falseWord; return false]
  return .boolLit value span

def atom (limit : Nat) (self : Rule Node) : Rule Node :=
  firstOf <| o.atoms.apply [integer limit, o.boolean, reference, paren self]

def conjunction (limit : Nat) (self : Rule Node) : Rule Node :=
  chain .conj ['&', '&'] (chain .equal ['=', '='] (chain .sum ['+'] (o.atom limit self)))

def function (self : Rule Node) : Rule Node := do
  let (((x, xSpan), type, body), span) ← located do
    keyword fnWord
    symbol ['(']
    let x ← located name
    symbol [':']
    let type ← o.annotation
    symbol [')']
    symbol ['=', '>']
    let body ← self
    return (x, type, body)
  return .fn x type body xSpan span

def expressionBody (limit : Nat) (self : Rule Node) : Rule Node :=
  firstOf <| o.expressions.apply [letIn self, o.function self, o.conjunction limit self]

def expressionUpTo (limit : Nat) : Nat → Rule Node
  | 0 => fun c ↦ .failed c.pos
  | n + 1 => o.expressionBody limit (expressionUpTo limit n)

def expression (limit : Nat) : Rule Node := fun c ↦
  o.expressionUpTo limit (c.rest.length + 1) c

def readExpression (source : String) : Except ParseError Node :=
  (o.expression maxDigits).whole.read source

def readAnnotation (source : String) : Except ParseError Node := o.annotation.whole.read source

/-! The order makes no difference to any of the rules. -/

variable (limit : Nat) (self : Rule Node)

theorem annotationAtom_eq : o.annotationAtom self = Grammar.annotationAtom self :=
  (firstOf_perm (o.annotations.perm _).symm (annotationAtom_exclusive self)).symm

theorem boolean_eq : o.boolean = Grammar.boolean := by
  rw [boolean, ← firstOf_perm (o.booleans.perm _).symm boolean_exclusive]
  rfl

theorem atom_eq : o.atom limit self = Grammar.atom limit self := by
  rw [atom, boolean_eq, ← firstOf_perm (o.atoms.perm _).symm (atom_exclusive limit self)]
  rfl

theorem conjunction_eq : o.conjunction limit self = Grammar.conjunction limit self := by
  rw [conjunction, atom_eq]
  rfl

theorem annotationUpTo_eq (n : Nat) : o.annotationUpTo n = Grammar.annotationUpTo n := by
  induction n with
  | zero => rfl
  | succ n ih =>
    rw [annotationUpTo, ih, annotationBody, annotationAtom_eq]
    rfl

theorem annotation_eq : o.annotation = Grammar.annotation :=
  funext fun c ↦ congrFun (o.annotationUpTo_eq _) c

theorem function_eq : o.function self = Grammar.function self := by
  rw [function, annotation_eq]
  rfl

theorem expressionUpTo_eq (n : Nat) :
    o.expressionUpTo limit n = Grammar.expressionUpTo limit n := by
  induction n with
  | zero => rfl
  | succ n ih =>
    rw [expressionUpTo, ih, expressionBody, function_eq, conjunction_eq,
      ← firstOf_perm (o.expressions.perm _).symm (expressionBody_exclusive limit _)]
    rfl

theorem expression_eq : o.expression limit = Grammar.expression limit :=
  funext fun c ↦ congrFun (o.expressionUpTo_eq limit _) c

end Order

end TypedLet.Grammar

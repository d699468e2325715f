import TypedLet.Grammar.Lexeme
import TypedLet.Node.Basic

namespace TypedLet.Grammar

open Rule

def arrows : Node → List Node → Node
  | a, [] => a
  | a, b :: bs =>
    let rest := arrows b bs
    .funcType a rest (a.spanning rest)

def baseType (word : List Char) (make : Option Span → Node) : Rule Node := do
  let (_, span) ← located (keyword word)
  return make span

/-- What may stand beside an arrow; `self` reads what parentheses enclose. -/
def annotationAtom (self : Rule Node) : Rule Node :=
  firstOf [baseType intWord .intType, baseType boolWord .boolType, do
    symbol ['(']
    let inner ← self
    symbol [')']
    return inner]

def annotationBody (self : Rule Node) : Rule Node := do
  let head ← annotationAtom self
  let tail ← many do
    symbol ['-', '>']
    annotationAtom self
  return arrows head tail

/-- An annotation with fewer than `n` parentheses around any part. -/
def annotationUpTo : Nat → Rule Node
  | 0 => fun c ↦ .failed c.pos
  | n + 1 => annotationBody (annotationUpTo n)

/-- A type annotation; no part of it can lie deeper than there are characters ahead. -/
def annotation : Rule Node := fun c ↦ annotationUpTo (c.rest.length + 1) c

end TypedLet.Grammar

import TypedLet.Grammar.Annotation

namespace TypedLet.Grammar

open Rule

/-- Parts joined by one operator, grouped to the left. -/
def chain (op : Op) (mark : List Char) (part : Rule Node) : Rule Node := do
  let head ← part
  let tail ← many do
    symbol mark
    part
  return tail.foldl (fun a b ↦ .binary op a b (a.spanning b)) head

def integer (limit : Nat) : Rule Node := do
  let (value, span) ← located (numeral limit)
  return .intLit value span

def boolean : Rule Node := do
  let (value, span) ← located <| firstOf [
    do keyword trueWord; return true,
    do keyword falseWord; return false]
  return .boolLit value span

def reference : Rule Node := do
  let (x, span) ← located name
  return .var x span

def paren (self : Rule Node) : Rule Node := do
  let (inner, span) ← located do
    symbol ['(']
    let inner ← self
    symbol [')']
    return inner
  return .paren inner span

def atom (limit : Nat) (self : Rule Node) : Rule Node :=
  firstOf [integer limit, boolean, reference, paren self]

def sum (limit : Nat) (self : Rule Node) : Rule Node := chain .sum ['+'] (atom limit self)

def equality (limit : Nat) (self : Rule Node) : Rule Node :=
  chain .equal ['=', '='] (sum limit self)

def conjunction (limit : Nat) (self : Rule Node) : Rule Node :=
  chain .conj ['&', '&'] (equality limit self)

def letIn (self : Rule Node) : Rule Node := do
  let ((x, right, body), span) ← located do
    keyword letWord
    let x ← name
    symbol ['=']
    let right ← self
    keyword inWord
    let body ← self
    return (x, right, body)
  return .letIn x right body span

def function (self : Rule Node) : Rule Node := do
  let (((x, xSpan), type, body), span) ← located do
    keyword fnWord
    symbol ['(']
    let x ← located name
    symbol [':']
    let type ← annotation
    symbol [')']
    symbol ['=', '>']
    let body ← self
    return (x, type, body)
  return .fn x type body xSpan span

def expressionBody (limit : Nat) (self : Rule Node) : Rule Node :=
  firstOf [letIn self, function self, conjunction limit self]

/-- An expression in which no part lies `n` levels deep or deeper. -/
def expressionUpTo (limit : Nat) : Nat → Rule Node
  | 0 => fun c ↦ .failed c.pos
  | n + 1 => expressionBody limit (expressionUpTo limit n)

/-- An expression; no part of it can lie deeper than there are characters ahead. -/
def expression (limit : Nat) : Rule Node := fun c ↦ expressionUpTo limit (c.rest.length + 1) c

end TypedLet.Grammar

import TypedLet.Proofs.Grammar.Terminal
import TypedLet.Grammar.Source

namespace TypedLet.Grammar

/-- What a grammar leaves open: how long a numeral may be, and where the parts of a tree are said
to stand. -/
structure Dialect where
  fits : Nat → Prop
  place : Nat → Nat → Option Span
  binderPlace : Node → Nat → Nat → Option Span

def Dialect.plain : Dialect := ⟨fun _ ↦ True, fun _ _ ↦ none, fun _ _ _ ↦ none⟩

inductive TypeLevel
  | atom
  | arrow

/-- The grammar of type annotations: a tree is derived from the text between two places. -/
inductive TypeDerives (d : Dialect) (s : List Char) : TypeLevel → Nat → Nat → Node → Prop
  | int {i j} : Keyword s intWord i j → TypeDerives d s .atom i j (.intType (d.place i j))
  | bool {i j} : Keyword s boolWord i j → TypeDerives d s .atom i j (.boolType (d.place i j))
  | paren {i k l j e} : Token s ['('] i k → TypeDerives d s .arrow k l e → Token s [')'] l j →
      TypeDerives d s .atom i j e
  | single {i j e} : TypeDerives d s .atom i j e → TypeDerives d s .arrow i j e
  | arrow {i k l j a b} : TypeDerives d s .atom i k a → Token s ['-', '>'] k l →
      TypeDerives d s .arrow l j b → TypeDerives d s .arrow i j (.funcType a b (a.spanning b))

inductive Level
  | atom
  | chain (op : Op)
  | expression
deriving DecidableEq

end TypedLet.Grammar

namespace TypedLet.Op

open Grammar

def mark : Op → List Char
  | conj => ['&', '&']
  | equal => ['=', '=']
  | sum => ['+']

def operand : Op → Level
  | conj => .chain .equal
  | equal => .chain .sum
  | sum => .atom

end TypedLet.Op

namespace TypedLet.Grammar

/-- The grammar of expressions: a tree is derived from the text between two places. -/
inductive Derives (d : Dialect) (s : List Char) : Level → Nat → Nat → Node → Prop
  | integer {i j digits} : Numeral s digits i j → d.fits digits.length →
      Derives d s .atom i j (.intLit (Text.numeralValue digits) (d.place i j))
  | yes {i j} : Keyword s trueWord i j → Derives d s .atom i j (.boolLit true (d.place i j))
  | no {i j} : Keyword s falseWord i j → Derives d s .atom i j (.boolLit false (d.place i j))
  | reference {i j x} : Name s x i j → Derives d s .atom i j (.var x (d.place i j))
  | paren {i k l j e} : Token s ['('] i k → Derives d s .expression k l e → Token s [')'] l j →
      Derives d s .atom i j (.paren e (d.place i j))
  | single {op i j e} : Derives d s op.operand i j e → Derives d s (.chain op) i j e
  | more {op i k l j a b} : Derives d s (.chain op) i k a → Token s op.mark k l →
      Derives d s op.operand l j b → Derives d s (.chain op) i j (.binary op a b (a.spanning b))
  | letIn {i i₁ i₂ i₃ i₄ i₅ j x right body} : Keyword s letWord i i₁ → Name s x i₁ i₂ →
      Token s ['='] i₂ i₃ → Derives d s .expression i₃ i₄ right → Keyword s inWord i₄ i₅ →
      Derives d s .expression i₅ j body →
      Derives d s .expression i j (.letIn x right body (d.binderPlace body i j))
  | function {i i₁ i₂ i₃ i₄ i₅ i₆ i₇ j x type body} : Keyword s fnWord i i₁ →
      Token s ['('] i₁ i₂ → Name s x i₂ i₃ → Token s [':'] i₃ i₄ →
      TypeDerives d s .arrow i₄ i₅ type → Token s [')'] i₅ i₆ → Token s ['=', '>'] i₆ i₇ →
      Derives d s .expression i₇ j body →
      Derives d s .expression i j
        (.fn x type body (d.place i₂ i₃) (d.binderPlace body i j))
  | operation {i j e} : Derives d s (.chain .conj) i j e → Derives d s .expression i j e

/-- The whole text is an expression, with this tree. -/
def IsExpression (s : List Char) (e : Node) : Prop :=
  ∃ j, Derives .plain s .expression 0 j e.erase ∧ Blank s j s.length

def IsAnnotation (s : List Char) (e : Node) : Prop :=
  ∃ j, TypeDerives .plain s .arrow 0 j e.erase ∧ Blank s j s.length

end TypedLet.Grammar

import TypedLet.Grammar.Expression
import TypedLet.Text.Lines
import TypedLet.Text.Tabs

namespace TypedLet

open Text

structure SyntaxError where
  text : String
  pos : Nat
deriving DecidableEq

namespace SyntaxError

def line (e : SyntaxError) : Nat := lineAt e.text.toList e.pos

def column (e : SyntaxError) : Nat := e.pos - lineStart e.text.toList e.line + 1

def sourceLine (e : SyntaxError) : String := String.ofList (lineText e.text.toList e.line)

def pointer (e : SyntaxError) : String := String.ofList (['^'].leftpad e.column ' ')

end SyntaxError

inductive ParseError where
  | unexpected (error : SyntaxError)
  | overlong (digits : Nat)
deriving DecidableEq

namespace Grammar

/-- Reads a text from its beginning, with its tabs expanded. -/
def Rule.read {α : Type} (r : Rule α) (source : String) : Except ParseError α :=
  let text := expandTabs source
  match r (Cursor.start text) with
  | .parsed a _ => .ok a
  | .failed pos => .error (.unexpected ⟨text, pos⟩)
  | .overlong n => .error (.overlong n)

def readExpression (source : String) : Except ParseError Node := (expression maxDigits).whole.read source

def readAnnotation (source : String) : Except ParseError Node := annotation.whole.read source

/-- A name, up to the end of the text or as the first thing in it. -/
def readName (source : String) (toEnd : Bool) : Except ParseError String :=
  if toEnd then name.whole.read source else name.read source

end Grammar

end TypedLet

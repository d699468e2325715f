import TypedLet.Span.Excerpt
import TypedLet.Typing.Program

namespace TypedLet

/-- The kind and the message of an error, then the text it points at, if it points anywhere. -/
def TypeError.report (e : TypeError) : String :=
  e.kind ++ ": " ++ e.message ++ "\n" ++
    match e.node.span with
    | some span => span.excerpt ++ "\n"
    | none => ""

def SyntaxError.message (e : SyntaxError) : String :=
  "ParseException:  (at char " ++ Text.decimal e.pos ++ "), (line:" ++ Text.decimal e.line ++
    ", col:" ++ Text.decimal e.column ++ ")"

/-- The line in question, a mark below the place, and where that is. -/
def SyntaxError.report (e : SyntaxError) : String :=
  e.sourceLine ++ "\n" ++ e.pointer ++ "\n" ++ e.message ++ "\n"

def ParseError.message : ParseError → String
  | unexpected e => e.message
  | overlong digits =>
    "Exceeds the limit (" ++ Text.decimal Grammar.maxDigits ++
      " digits) for integer string conversion: value has " ++ Text.decimal digits ++
      " digits; use sys.set_int_max_str_digits() to increase the limit"

def Failure.message : Failure → String
  | unreadable e => e.message
  | rejected e => e.message

end TypedLet

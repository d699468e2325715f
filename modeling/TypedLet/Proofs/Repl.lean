import TypedLet.Proofs.Report
import TypedLet.Repl

namespace TypedLet.Repl

open Grammar Text

/-- What a line is answered, line by line. -/
inductive Reply (line : String) : List String → Prop
  | blank : Text.blank line → Reply line []
  | typed {ty : Ty} : Text.blank line = false → checkSource line = .ok ty →
      Reply line ["Type: " ++ ty.text]
  | misread {e : SyntaxError} : Text.blank line = false →
      checkSource line = .error (.unreadable (.unexpected e)) →
      Reply line [e.sourceLine, e.pointer, e.message]
  | illTyped {e : TypeError} {span : Span} : Text.blank line = false →
      checkSource line = .error (.rejected (.illTyped e)) → e.node.span = some span →
      Reply line [e.kind ++ ": " ++ e.message, Span.numberedLine (expandTabs line).toList 1,
        span.underline "^"]

/-- The failure that a line ends the conversation with, if a numeral in it is too long. -/
def ending (line : String) : Option Failure :=
  match readExpression line with
  | .error (.overlong digits) => some (.unreadable (.overlong digits))
  | _ => none

variable {line input : String} {failure : Failure} {digits : Nat} {lines : List String}

end TypedLet.Repl

import TypedLet.Report
import TypedLet.Text.Blank

namespace TypedLet.Repl

def prompt : String := "> "

/-- What is answered to a line, or the failure that ends the conversation. -/
def answer (line : String) : Except Failure String :=
  if Text.blank line then .ok ""
  else
    match checkSource line with
    | .ok ty => .ok ("Type: " ++ ty.text ++ "\n")
    | .error (.unreadable (.unexpected e)) => .ok e.report
    | .error (.rejected (.illTyped e)) => .ok e.report
    | .error failure => .error failure

/-- All that a conversation prints, and the failure that cut it short, if one did. -/
structure Transcript where
  output : String
  failure : Option Failure

def transcribe : List String → Transcript
  | [] => ⟨prompt, none⟩
  | line :: rest =>
    match answer line with
    | .ok text =>
      let t := transcribe rest
      { t with output := prompt ++ text ++ t.output }
    | .error failure => ⟨prompt, some failure⟩

/-- The lines of an input; the last one need not be ended. -/
def inputLines (input : String) : List String :=
  let pieces := (Text.lines input.toList).map String.ofList
  if pieces.getLast? = some "" then pieces.dropLast else pieces

def transcript (input : String) : Transcript := transcribe (inputLines input)

end TypedLet.Repl

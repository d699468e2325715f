import TypedLet.Repl

namespace TypedLet.Repl

/-- Answers line after line until the input ends or a failure cuts the conversation short. -/
partial def converse (input output : IO.FS.Stream) : IO UInt32 := do
  output.putStr prompt
  output.flush
  let line ← input.getLine
  if line.isEmpty then return 0
  match answer (if line.endsWith "\n" then (line.dropEnd 1).toString else line) with
  | .ok text =>
    output.putStr text
    converse input output
  | .error failure =>
    IO.eprintln failure.message
    return 1

end TypedLet.Repl

def main : IO UInt32 := do
  TypedLet.Repl.converse (← IO.getStdin) (← IO.getStdout)

import FlatLisp.Console

/-! The console on standard input and output. -/
namespace FlatLisp

/-- Answers line after line until a line or the end of the input ends the conversation. -/
partial def serve (input output : IO.FS.Stream) (c : Console) : IO Unit := do
  let line ← input.getLine
  if line.isEmpty then output.putStr (writeLines Response.goodbye.lines)
  else
    match c.feed ampleSteps line.toList with
    | none => throw (IO.userError "out of steps")
    | some (r, c) =>
      output.putStr (writeLines r.lines)
      output.flush
      match r with
      | .goodbye => pure ()
      | _ => serve input output c

end FlatLisp

def main : IO Unit := do
  let output ← IO.getStdout
  output.putStr (FlatLisp.writeLines FlatLisp.Response.welcome)
  output.flush
  FlatLisp.serve (← IO.getStdin) output FlatLisp.Console.start

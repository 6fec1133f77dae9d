import FlatLisp.Console.Response
import FlatLisp.Text.Blank
import FlatLisp.Text.Lines

/-! The console: a session that is fed line by line and collects lines until their parens close. -/
namespace FlatLisp

structure Console where
  session : Session
  /-- The lines of input that is not complete. -/
  pending : List Char := []

namespace Console

/-- How many more parens a line opens than it closes. A semicolon ends what counts of it. -/
def lineBalance (line : List Char) : Int :=
  let code := line.takeWhile (· ≠ ';')
  (code.count '(' : Int) - code.count ')'

def openBalance (text : List Char) : Int := ((splitLines text).map lineBalance).foldr (· + ·) 0

/-- A console has comments. -/
def start : Console := ⟨.start { comments := true }, []⟩

/-- A command, which is one only if no input is pending. -/
def command? (c : Console) (line : String) : Option (Response × Console) :=
  match line with
  | "" => some (.ignored, c)
  | ":help" => some (.help, c)
  | ":env" => some (.listing c.session.env.allFunctions c.session.env.bindings, c)
  | ":reset" => some (.cleared, { c with session := c.session.reset })
  | ":quit" | ":exit" => some (.goodbye, c)
  | _ => none

/-- Adds a line to the pending input, and executes that once no paren is left open. -/
def collect (steps : Nat) (c : Console) (line : List Char) : Option (Response × Console) :=
  let pending := c.pending ++ line ++ ['\n']
  if 0 < openBalance pending then some (.collecting, { c with pending })
  else
    (c.session.execute steps (String.ofList pending)).map fun (x, s) =>
      (.executed (String.ofList pending) x, ⟨s, []⟩)

def feed (steps : Nat) (c : Console) (line : List Char) : Option (Response × Console) :=
  let line := trimBlanks line
  match if c.pending.isEmpty then c.command? (String.ofList line) else none with
  | some answer => some answer
  | none => c.collect steps line

/-- The responses to the lines up to the one that ends the conversation. The end of the lines
ends it as well. -/
def converse (steps : Nat) (c : Console) : List (List Char) → Option (List Response × Console)
  | [] => some ([.goodbye], c)
  | line :: rest =>
    match c.feed steps line with
    | some (.goodbye, c) => some ([.goodbye], c)
    | some (r, c) => (converse steps c rest).map fun (rs, c) => (r :: rs, c)
    | none => none

end Console

/-- All that a console writes on an input. -/
def Console.transcript (steps : Nat) (input : String) : Option String :=
  (start.converse steps (splitLines input.toList)).map fun (responses, _) =>
    writeLines (Response.welcome ++ responses.flatMap Response.lines)

end FlatLisp

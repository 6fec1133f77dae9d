import FlatLisp.Evaluation
import FlatLisp.Token.Lexer

/-! Sessions: source texts that are executed one after another in the same environment. -/
namespace FlatLisp

structure Config where
  recursionLimit : Nat := defaultRecursionLimit
  roundLimit : Option Nat := none
  callScope : CallScope := .copyCaller
  comments : Bool := false
  deriving DecidableEq, Repr

def Config.options (c : Config) : Options := ⟨c.callScope, c.roundLimit⟩

def Config.environment (c : Config) : Environment (List Token) :=
  { recursionLimit := c.recursionLimit }

/-- More steps than an evaluation takes that ends within a lifetime. -/
def ampleSteps : Nat := 4611686018427387904

/-- What a source text led to. The lines printed before an error are kept. -/
structure Execution where
  output : Array String
  outcome : Except Error Value

namespace Execution

def isOk (x : Execution) : Bool :=
  match x.outcome with
  | .ok _ => true
  | .error _ => false

/-- The printed lines, and one more that tells an error. -/
def lines (x : Execution) : List String :=
  match x.outcome with
  | .ok _ => x.output.toList
  | .error e => x.output.toList ++ [s!"Error: {e.message}"]

end Execution

structure Session where
  config : Config
  env : Environment (List Token)

namespace Session

def start (config : Config) : Session := ⟨config, config.environment⟩

/-- Forgets all variables and functions. -/
def reset (s : Session) : Session := start s.config

/-- Evaluates the forms of a source text as long as they succeed. Where the parens of the text do
not balance, none of them is evaluated. -/
def execute (steps : Nat) (s : Session) (source : String) : Option (Execution × Session) :=
  match Lexer.tokenize s.config.comments source with
  | .error f => some (⟨#[], .error (.bare f)⟩, s)
  | .ok tokens =>
    match (evaluateProgram steps tokens : Evaluation (List Token) Value) s.config.options
        { env := s.env } with
    | some (outcome, t) => some (⟨t.output, outcome⟩, { s with env := t.env })
    | none => none

def run (steps : Nat) (s : Session) (source : String) : Option (List String × Session) :=
  (s.execute steps source).map fun (x, t) => (x.lines, t)

end Session

/-- The lines that a source text leads to in a session of its own. -/
def run (steps : Nat) (source : String) : Option (List String) :=
  ((Session.start {}).run steps source).map (·.1)

end FlatLisp

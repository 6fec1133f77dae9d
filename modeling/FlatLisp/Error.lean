import FlatLisp.Fault

/-! Errors: faults, with the forms in which they came up. -/
namespace FlatLisp

/-- A fault and the forms it is reported from, the innermost first. -/
structure Error where
  fault : Fault
  context : List String
  deriving DecidableEq, Repr

/-- The longest rendering of a form that a context keeps. -/
def Error.contextLimit : Nat := 100

/-- A rendering longer than the limit is cut and marked. -/
def Error.excerpt (text : String) : String :=
  let cs := text.toList
  if cs.length ≤ contextLimit then text
  else String.ofList (cs.take contextLimit ++ "[...]".toList)

namespace Error

/-- A fault that no form has been named for. -/
def bare (f : Fault) : Error := ⟨f, []⟩

def kind (e : Error) : Fault.Kind := e.fault.kind

def within (e : Error) (expression : String) : Error := ⟨e.fault, e.context ++ [expression]⟩

/-- The first form that an error leaves is its context; the forms around that one add nothing. -/
def locate (form : List Token) (e : Error) : Error :=
  if e.context.isEmpty then e.within (excerpt (Token.render form)) else e

def message (e : Error) : String :=
  e.context.foldl (fun said expression => s!"{said} (while evaluating: {expression})")
    e.fault.message

end Error

end FlatLisp

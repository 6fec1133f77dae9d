import FlatLisp.Evaluation

/-! Evaluations with two levels of variables: the globals, and the variables of the one call that is
being evaluated. There is no stack of scopes, and so nothing to isolate. -/
namespace FlatLisp

variable {β α : Type}

/-- The state of a session that knows no variables besides the globals and those of the call that
is evaluated. At top level there are no such ones. -/
structure TwoLevelState (β : Type) where
  globals : Scope
  locals : Option (Std.ExtTreeMap String Value)
  functions : Std.ExtTreeMap String (UserFunction β)
  depth : Nat
  recursionLimit : Nat
  output : Array String

namespace TwoLevelState

def lookup (s : TwoLevelState β) (name : String) : Option Value :=
  (s.locals.bind (·[name]?)).or (s.globals.get? name)

def assign (s : TwoLevelState β) (name : String) (v : Value) : TwoLevelState β :=
  match s.locals with
  | some bindings => { s with locals := some (bindings.insert name v) }
  | none => { s with globals := s.globals.define name v }

/-- The variables that a call begins with, before its parameters are bound. -/
def localsOfCall (rule : CallScope) (s : TwoLevelState β) : Std.ExtTreeMap String Value :=
  match rule with
  | .copyCaller => s.locals.getD ∅
  | .parametersOnly => ∅

end TwoLevelState

/-- An evaluation on such a state. -/
def TwoLevelEvaluation (β α : Type) : Type :=
  Options → TwoLevelState β → Option (Except Error α × TwoLevelState β)

namespace TwoLevelEvaluation

instance : Monad (TwoLevelEvaluation β) where
  pure a := fun _ s => some (.ok a, s)
  bind x f := fun o s =>
    match x o s with
    | some (.ok a, s) => f a o s
    | some (.error e, s) => some (.error e, s)
    | none => none

def modify (f : TwoLevelState β → TwoLevelState β) : TwoLevelEvaluation β Unit := fun _ s =>
  some (.ok (), f s)

def located (form : List Token) (x : TwoLevelEvaluation β α) : TwoLevelEvaluation β α := fun o s =>
  match x o s with
  | some (.error e, s) => some (.error (e.locate form), s)
  | r => r

/-- The variables of the caller are put aside, and are back after whatever outcome. -/
def called (x : TwoLevelEvaluation β α) : TwoLevelEvaluation β α := fun o s =>
  if s.recursionLimit ≤ s.depth then some (.error (.bare (.recursionLimit s.recursionLimit)), s)
  else
    match x o { s with locals := some (s.localsOfCall o.callScope), depth := s.depth + 1 } with
    | some (r, t) => some (r, { t with locals := s.locals, depth := t.depth - 1 })
    | none => none

def guardRound (rounds : Nat) : TwoLevelEvaluation β Unit := fun o s =>
  match o.roundLimit with
  | some limit =>
    if limit ≤ rounds then some (.error (.bare (.iterationLimit limit)), s) else some (.ok (), s)
  | none => some (.ok (), s)

instance : Machine β (TwoLevelEvaluation β) where
  fail f := fun _ s => some (.error (.bare f), s)
  exhausted := fun _ _ => none
  inForm := located
  inCall _ := called
  lookup name := fun _ s => some (.ok (s.lookup name), s)
  assign name v := modify (·.assign name v)
  function? name := fun _ s => some (.ok s.functions[name]?, s)
  define f := modify fun s => { s with functions := s.functions.insert f.name f }
  print line := modify fun s => { s with output := s.output.push line }
  startRound := guardRound

end TwoLevelEvaluation
end FlatLisp

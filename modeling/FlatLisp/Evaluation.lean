import FlatLisp.Error
import FlatLisp.Eval.Form

/-! Evaluations that run: from an environment to an outcome, printed lines and an environment. -/
namespace FlatLisp

/-- What an evaluation is bound to, apart from the environment. -/
structure Options where
  callScope : CallScope := .copyCaller
  /-- The most rounds of one loop. -/
  roundLimit : Option Nat := none
  deriving DecidableEq, Repr

structure State (β : Type) where
  env : Environment β
  output : Array String := #[]

/-- An evaluation that may change the state, and that is without a result if it is not given
enough steps. An error leaves the changes in place. -/
def Evaluation (β α : Type) : Type := Options → State β → Option (Except Error α × State β)

namespace Evaluation
variable {β α : Type}

instance : Monad (Evaluation β) where
  pure a := fun _ s => some (.ok a, s)
  bind x f := fun o s =>
    match x o s with
    | some (.ok a, s) => f a o s
    | some (.error e, s) => some (.error e, s)
    | none => none

instance : LawfulMonad (Evaluation β) := LawfulMonad.mk' _
  (fun x => by
    funext o s
    simp only [Functor.map]
    rcases x o s with _ | ⟨_ | _, _⟩ <;> rfl)
  (fun _ _ => rfl)
  (fun x _ _ => by
    funext o s
    simp only [bind]
    rcases x o s with _ | ⟨_ | _, _⟩ <;> rfl)

/-- Looks at the environment. -/
def read (f : Environment β → α) : Evaluation β α := fun _ s => some (.ok (f s.env), s)

/-- Changes the environment. -/
def modify (f : Environment β → Environment β) : Evaluation β Unit := fun _ s =>
  some (.ok (), { s with env := f s.env })

def throwFault (f : Fault) : Evaluation β α := fun _ s => some (.error (.bare f), s)

/-- Names the form in an error that has no context. -/
def located (form : List Token) (x : Evaluation β α) : Evaluation β α := fun o s =>
  match x o s with
  | some (.error e, s) => some (.error (e.locate form), s)
  | r => r

/-- The depth is counted and the scope pushed before, and both undone after whatever outcome. -/
def called (x : Evaluation β α) : Evaluation β α := fun o s =>
  match s.env.enter with
  | .error f => some (.error (.bare f), s)
  | .ok env =>
    match x o { s with env := env.pushCall o.callScope } with
    | some (r, s) => some (r, { s with env := s.env.pop.exit })
    | none => none

def printLine (line : String) : Evaluation β Unit := fun _ s =>
  some (.ok (), { s with output := s.output.push line })

def guardRound (rounds : Nat) : Evaluation β Unit := fun o s =>
  match o.roundLimit with
  | some limit =>
    if limit ≤ rounds then some (.error (.bare (.iterationLimit limit)), s) else some (.ok (), s)
  | none => some (.ok (), s)

instance : Machine β (Evaluation β) where
  fail := throwFault
  exhausted := fun _ _ => none
  inForm := located
  inCall _ := called
  lookup name := read (·.lookup name)
  assign name v := modify (·.assign name v)
  function? name := read (·.function? name)
  define f := modify (·.define f)
  print := printLine
  startRound := guardRound

end Evaluation
end FlatLisp

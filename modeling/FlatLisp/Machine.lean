import FlatLisp.Environment

/-! What an evaluation does to the world around it. The evaluator uses nothing else of that, so it
can be run for its outcome, and also be watched. -/
namespace FlatLisp

/-- The effects of an evaluation. Function bodies are kept as values of type `β`. -/
class Machine (β : outParam Type) (m : Type → Type) extends Monad m where
  /-- Ends the evaluation with a fault. -/
  fail {α : Type} : Fault → m α
  /-- Gives the evaluation up, since it needs more steps than it was given. -/
  exhausted {α : Type} : m α
  /-- Evaluates a form. An error that leaves it may name it. -/
  inForm {α : Type} : List Token → m α → m α
  /-- Evaluates the body of a call of the function, in a scope of its own and counted as active. -/
  inCall {α : Type} : UserFunction β → m α → m α
  lookup : String → m (Option Value)
  assign : String → Value → m Unit
  function? : String → m (Option (UserFunction β))
  define : UserFunction β → m Unit
  print : String → m Unit
  /-- Lets a loop begin another round after the given number of them. -/
  startRound : Nat → m Unit

namespace Machine
variable {β : Type} {m : Type → Type} [Machine β m] {α : Type}

def ofExcept : Except Fault α → m α
  | .ok a => pure a
  | .error f => fail f

def malformed (cause : Malformation) : m α := fail (.malformed cause)

end Machine
end FlatLisp

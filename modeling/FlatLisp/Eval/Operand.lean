import FlatLisp.Machine

/-! Operands, sequences of them, and loops. The evaluation of a form is given to all of them as
`self`, so that what they do to a form is said once. -/
namespace FlatLisp.Eval
open Machine

variable {β : Type} {m : Type → Type} [Machine β m] (self : List Token → m Value)

def integerLiteral (text : String) : m Value :=
  match Integer.read? text with
  | some n => pure (.integer n)
  | none => malformed (.literalRange text)

/-- A symbol without a value stands for its own text. -/
def evalSymbol (name : String) : m Value := do
  return (← lookup name).getD (.text name)

def evalAtom (t : Token) : m Value :=
  match t.kind with
  | .number => integerLiteral t.text
  | .symbol => evalSymbol t.text
  | .opening | .closing => malformed (.parenOperand t.text)

def evalOperand : List Token → m Value
  | [] => malformed (.notAnOperand [])
  | [t] => evalAtom t
  | operand@(t :: _ :: _) => if t.isOpen then self operand else malformed (.notAnOperand operand)

def evalOperands : List (List Token) → m (List Value)
  | [] => pure []
  | x :: xs => do
    let v ← evalOperand self x
    let vs ← evalOperands xs
    return v :: vs

/-- The value of the last operand, or `last` where there is none. -/
def evalSequence (last : Value) : List (List Token) → m Value
  | [] => pure last
  | x :: xs => do
    let v ← evalOperand self x
    evalSequence v xs

/-- Repeats the body while the condition is true, after `rounds` rounds of which the last one gave
`last`. -/
def loop (condition body : m Value) (steps rounds : Nat) (last : Value) : m Value :=
  match steps with
  | 0 => exhausted
  | steps + 1 => do
    let c ← condition
    if c.isTruthy then
      startRound rounds
      let v ← body
      loop condition body steps (rounds + 1) v
    else pure last

end FlatLisp.Eval

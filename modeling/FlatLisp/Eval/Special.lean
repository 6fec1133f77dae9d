import FlatLisp.Builtin
import FlatLisp.Eval.Operand
import FlatLisp.Token.Nesting

/-! The special forms. Each of them counts its operands by itself. -/
namespace FlatLisp.Eval
open Machine Nesting

variable {m : Type → Type} [Machine (List Token) m] (self : List Token → m Value)

def wrongArity {α : Type} (form : SpecialForm) (operands : List (List Token)) : m α :=
  fail (.arityMismatch form.symbol form.arity operands.length)

/-- The name that an operand consists of. -/
def nameOf (form : SpecialForm) : List Token → m String
  | [t] =>
    if t.kind = .symbol then pure t.text else malformed (.nameExpected form.symbol [t])
  | found => malformed (.nameExpected form.symbol found)

def evalSetq : List (List Token) → m Value
  | [target, operand] => do
    let name ← nameOf .setq target
    let v ← evalOperand self operand
    assign name v.normalized
    return v.normalized
  | operands => wrongArity .setq operands

def evalPrint : List (List Token) → m Value
  | [operand] => do
    let v ← evalOperand self operand
    print v.display
    return v
  | operands => wrongArity .print operands

/-- The names that the tokens of a parameter list are, after those in `earlier`. -/
def parameterNames (function : String) (earlier : List String) :
    List Token → Except Malformation (List String)
  | [] => .ok []
  | t :: ts =>
    if t.kind ≠ .symbol then .error (.parameterNotName function t.text)
    else if t.text ∈ earlier then .error (.duplicateParameter t.text function)
    else (parameterNames function (t.text :: earlier) ts).map (t.text :: ·)

def parametersOf (function : String) (operand : List Token) :
    Except Malformation (List String) :=
  match enclosed? operand with
  | some tokens => parameterNames function [] tokens
  | none => .error (.noParameterList function operand)

def evalDefun : List (List Token) → m Value
  | target :: parameterList :: body => do
    let name ← nameOf .defun target
    if (Builtin.ofSymbol? name).isSome then malformed (.redefinesBuiltin name)
    else
      match parametersOf name parameterList with
      | .error cause => malformed cause
      | .ok parameters =>
        if body.isEmpty then malformed (.noBody name)
        else
          define ⟨name, parameters, body.flatten⟩
          return .text name
  | operands => wrongArity .defun operands

def evalIf : List (List Token) → m Value
  | [condition, yes] => do
    let c ← evalOperand self condition
    if c.isTruthy then evalOperand self yes else pure .empty
  | [condition, yes, no] => do
    let c ← evalOperand self condition
    if c.isTruthy then evalOperand self yes else evalOperand self no
  | operands => wrongArity .cond operands

def evalWhile (steps : Nat) : List (List Token) → m Value
  | condition :: body =>
    loop (evalOperand self condition) (evalSequence self .empty body) steps 0 (.integer 0)
  | operands => wrongArity .loopWhile operands

/-- The value of a round is that of the body, whatever the update gives. -/
def forRound (body update : List Token) : m Value := do
  let v ← evalOperand self body
  let _ ← evalOperand self update
  return v

def evalFor (steps : Nat) : List (List Token) → m Value
  | [start, condition, body, update] => do
    let _ ← evalOperand self start
    loop (evalOperand self condition) (forRound self body update) steps 0 (.integer 0)
  | operands => wrongArity .loopFor operands

/-- A special form on its operands, which it counts itself. -/
def evalSpecial (steps : Nat) : SpecialForm → List (List Token) → m Value
  | .setq, operands => evalSetq self operands
  | .print, operands => evalPrint self operands
  | .defun, operands => evalDefun operands
  | .cond, operands => evalIf self operands
  | .loopWhile, operands => evalWhile self steps operands
  | .loopFor, operands => evalFor self steps operands

end FlatLisp.Eval

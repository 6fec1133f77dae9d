import FlatLisp.Fault
import FlatLisp.Number

/-! Operators: the built-in functions, which see the values of their operands. -/
namespace FlatLisp

inductive Operator
  | add
  | sub
  | mul
  | div
  | pow
  | mod
  | gt
  | lt
  | eq
  | ge
  | le
  deriving DecidableEq, Repr

namespace Operator

def symbol : Operator → String
  | add => "+"
  | sub => "-"
  | mul => "*"
  | div => "/"
  | pow => "^"
  | mod => "%"
  | gt => ">"
  | lt => "<"
  | eq => "="
  | ge => ">="
  | le => "<="

def arity : Operator → Arity
  | add | mul => .any
  | sub | div | pow | mod => .atLeast 1
  | gt | lt | eq | ge | le => .exact 2

/-- The operands as numbers. The first one that is none is the fault. -/
def numbers (op : Operator) : List Value → Except Fault (List Number)
  | [] => .ok []
  | v :: vs => do
    match Number.ofValue? v with
    | some x => return x :: (← numbers op vs)
    | none => throw (.invalidOperand op.symbol v.display)

def overflow (op : Operator) : Fault := .arithmeticOverflow op.symbol

/-- Combines the numbers with the seed from the left, as long as there is a result. -/
def accumulate (step : Number → Number → Option Number) (seed : Number) :
    List Number → Option Number
  | [] => some seed
  | x :: xs => (step seed x).bind fun y => accumulate step y xs

def result (op : Operator) (x : Option Number) : Except Fault Value :=
  match x.bind Number.toValue? with
  | some v => .ok v
  | none => .error op.overflow

/-- An operator with a neutral element, which no operands amount to. -/
def foldFrom (op : Operator) (neutral : Int64) (step : Number → Number → Option Number)
    (args : List Value) : Except Fault Value := do
  op.result (accumulate step (.int neutral) (← op.numbers args))

/-- An operator that starts with its first operand. `refuse` is what a zero among the others
leads to, if that is a fault. -/
def foldFirst (op : Operator) (refuse : Option Fault) (step : Number → Number → Option Number)
    (args : List Value) : Except Fault Value := do
  match ← op.numbers args, refuse with
  | [], _ => throw (.arityMismatch op.symbol (.atLeast 1) 0)
  | seed :: rest, some fault =>
    if rest.any Number.isZero then throw fault else op.result (accumulate step seed rest)
  | seed :: rest, none => op.result (accumulate step seed rest)

def comparand (op : Operator) (v : Value) : Except Fault Number :=
  match Number.ofValue? v with
  | some x => .ok x
  | none => .error (.nonNumericComparison op.symbol v.display)

/-- Whether the two operands stand in an order that is accepted. -/
def comparison (op : Operator) (accepts : Ordering → Bool) :
    List Value → Except Fault Value
  | [left, right] => do
    let a ← op.comparand left
    let b ← op.comparand right
    return .ofBool ((a.compare? b).any accepts)
  | args => throw (.arityMismatch op.symbol (.exact 2) args.length)

def apply (op : Operator) (args : List Value) : Except Fault Value :=
  match op with
  | add => op.foldFrom 0 Number.add? args
  | mul => op.foldFrom 1 Number.mul? args
  | sub => op.foldFirst none Number.sub? args
  | pow => op.foldFirst none Number.pow? args
  | div => op.foldFirst (some .divisionByZero) Number.div? args
  | mod => op.foldFirst (some .moduloByZero) Number.rem? args
  | gt => op.comparison (· = .gt) args
  | lt => op.comparison (· = .lt) args
  | eq => op.comparison (· = .eq) args
  | ge => op.comparison (· ≠ .lt) args
  | le => op.comparison (· ≠ .gt) args

end Operator
end FlatLisp

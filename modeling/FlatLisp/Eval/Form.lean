import FlatLisp.Eval.Special

/-! Forms and programs. Nesting is not kept: a form is found by its parens each time that it is
evaluated. The number of steps bounds how deep forms go and how often loops go round. -/
namespace FlatLisp
namespace Eval
open Machine Nesting

variable {m : Type → Type} [Machine (List Token) m] (self : List Token → m Value)

/-- An operator on the values of its operands. -/
def evalOperator (op : Operator) (operands : List (List Token)) : m Value := do
  let args ← evalOperands self operands
  ofExcept (op.apply args)

def bindParameters {β : Type} {m : Type → Type} [Machine β m] :
    List String → List Value → m Unit
  | name :: names, v :: vs => do
    assign name v.normalized
    bindParameters names vs
  | _, _ => pure ()

/-- A call with arguments that have been evaluated. -/
def invoke (f : UserFunction (List Token)) (args : List Value) : m Value :=
  if args.length = f.parameters.length then do
    let body ← ofExcept (splitOperands f.body)
    inCall f do
      bindParameters f.parameters args
      evalSequence self .empty body
  else fail (.arityMismatch f.name (.exact f.parameters.length) args.length)

def evalBuiltin (steps : Nat) (b : Builtin) (operands : List (List Token)) : m Value := do
  ofExcept (b.arity.validate b.symbol operands.length)
  match b with
  | .operator op => evalOperator self op operands
  | .special form => evalSpecial self steps form operands

/-- A name at the head of a form is a builtin, or else a function, or else a variable. -/
def applyName (steps : Nat) (name : String) (operands : List (List Token)) : m Value :=
  match Builtin.ofSymbol? name with
  | some b => evalBuiltin self steps b operands
  | none => do
    match ← function? name with
    | some f => do
      let args ← evalOperands self operands
      invoke self f args
    | none =>
      match ← lookup name with
      | some v => if operands.isEmpty then pure v else malformed (.variableApplied name)
      | none => fail (.unknownCommand name)

/-- A form whose head is a form is a block. -/
def evalInner (steps : Nat) : List Token → m Value
  | [] => malformed .emptyExpression
  | head :: rest =>
    match head.kind with
    | .opening => do
      let elements ← ofExcept (splitOperands (head :: rest))
      evalSequence self .empty elements
    | .number => do
      let operands ← ofExcept (splitOperands rest)
      if operands.isEmpty then integerLiteral head.text else malformed (.numberApplied head.text)
    | .symbol => do
      let operands ← ofExcept (splitOperands rest)
      applyName self steps head.text operands
    | .closing => malformed .headClose

def dispatch (steps : Nat) (form : List Token) : m Value :=
  match enclosed? form with
  | some inner => evalInner self steps inner
  | none => malformed (.notParenthesized form)

end Eval

open Machine Nesting Eval

variable {m : Type → Type} [Machine (List Token) m]

/-- The value of a form. -/
def evalForm (steps : Nat) (form : List Token) : m Value :=
  match steps with
  | 0 => exhausted
  | steps + 1 => inForm form (dispatch (evalForm steps) steps form)

/-- The value of tokens that are one form and nothing else. -/
def evaluate (steps : Nat) (tokens : List Token) : m Value :=
  match tokens with
  | [] => malformed .emptyInput
  | t :: ts =>
    if t.isOpen then do
      let close ← ofExcept (matchParen (t :: ts) 0)
      if close + 1 = (t :: ts).length then evalForm steps (t :: ts)
      else malformed (.tokensAfter ((t :: ts).drop (close + 1)))
    else malformed (.startsWithAtom t.text)

/-- The value of the last of the forms, or `last` where there is none. -/
def evalForms (steps : Nat) (last : Value) : List (List Token) → m Value
  | [] => pure last
  | [t] :: _ => malformed (.bareTopLevel t.text)
  | form :: forms => do
    let v ← evalForm steps form
    evalForms steps v forms

/-- The value of the last of the forms that the tokens are. All forms in front of a misplaced
paren are evaluated before it is found. -/
def evaluateProgram (steps : Nat) (tokens : List Token) : m Value := do
  let found := operands tokens
  let v ← evalForms steps .empty found.complete
  match found.cutShort with
  | none => pure v
  | some (.strayClose _ paren) => malformed (.bareTopLevel paren.text)
  | some (.unmatchedOpen index) => fail (.unbalanced (.unmatchedOpen index))

end FlatLisp

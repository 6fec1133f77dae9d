import FlatLisp.Eval.Form
import FlatLisp.Proofs.Tree

/-! An evaluator of trees. It never looks for a paren: a form has its operands at hand, and the body
of a function is stored as trees. -/
namespace FlatLisp.Tree
open Machine Eval

variable {m : Type → Type} [Machine (List Tree) m]

section
variable (self : Tree → m Value)

def evalAll : List Tree → m (List Value)
  | [] => pure []
  | tree :: trees => do
    let v ← self tree
    let vs ← evalAll trees
    return v :: vs

def evalLast (last : Value) : List Tree → m Value
  | [] => pure last
  | tree :: trees => do
    let v ← self tree
    evalLast v trees

def nameOf (form : SpecialForm) : Tree → m String
  | symbol name => pure name
  | found => malformed (.nameExpected form.symbol found.tokens)

/-- The names that the elements of a parameter list are, after those in `earlier`. -/
def parameterNames (function : String) (earlier : List String) :
    List Tree → Except Malformation (List String)
  | [] => .ok []
  | symbol name :: trees =>
    if name ∈ earlier then .error (.duplicateParameter name function)
    else (parameterNames function (name :: earlier) trees).map (name :: ·)
  | number text :: _ => .error (.parameterNotName function text)
  | list opening _ _ :: _ => .error (.parameterNotName function opening)

def parametersOf (function : String) : Tree → Except Malformation (List String)
  | list _ _ elements => parameterNames function [] elements
  | found => .error (.noParameterList function found.tokens)

def evalDefun (target parameterList : Tree) (body : List Tree) : m Value := do
  let name ← nameOf .defun target
  if (Builtin.ofSymbol? name).isSome then malformed (.redefinesBuiltin name)
  else
    match parametersOf name parameterList with
    | .error cause => malformed cause
    | .ok parameters =>
      if body.isEmpty then malformed (.noBody name)
      else
        define ⟨name, parameters, body⟩
        return .text name

def evalSpecial (steps : Nat) : SpecialForm → List Tree → m Value
  | .setq, [target, operand] => do
    let name ← nameOf .setq target
    let v ← self operand
    assign name v.normalized
    return v.normalized
  | .print, [operand] => do
    let v ← self operand
    print v.display
    return v
  | .defun, target :: parameterList :: body => evalDefun target parameterList body
  | .cond, [condition, yes] => do
    let c ← self condition
    if c.isTruthy then self yes else pure .empty
  | .cond, [condition, yes, no] => do
    let c ← self condition
    if c.isTruthy then self yes else self no
  | .loopWhile, condition :: body =>
    loop (self condition) (evalLast self .empty body) steps 0 (.integer 0)
  | .loopFor, [start, condition, body, update] => do
    let _ ← self start
    let round : m Value := do
      let v ← self body
      let _ ← self update
      return v
    loop (self condition) round steps 0 (.integer 0)
  | form, operands => fail (.arityMismatch form.symbol form.arity operands.length)

def call (f : UserFunction (List Tree)) (args : List Value) : m Value :=
  if args.length = f.parameters.length then
    inCall f do
      bindParameters f.parameters args
      evalLast self .empty f.body
  else fail (.arityMismatch f.name (.exact f.parameters.length) args.length)

/-- A name applied to operands is a builtin, or else a function, or else a variable. -/
def apply (steps : Nat) (name : String) (operands : List Tree) : m Value :=
  match Builtin.ofSymbol? name with
  | some b => do
    ofExcept (b.arity.validate b.symbol operands.length)
    match b with
    | .operator op => do
      let args ← evalAll self operands
      ofExcept (op.apply args)
    | .special form => evalSpecial self steps form operands
  | none => do
    match ← function? name with
    | some f => do
      let args ← evalAll self operands
      call self f args
    | none =>
      match ← lookup name with
      | some v => if operands.isEmpty then pure v else malformed (.variableApplied name)
      | none => fail (.unknownCommand name)

def evalElements (steps : Nat) : List Tree → m Value
  | [] => malformed .emptyExpression
  | symbol name :: operands => apply self steps name operands
  | number text :: operands =>
    if operands.isEmpty then integerLiteral text else malformed (.numberApplied text)
  | elements@(list _ _ _ :: _) => evalLast self .empty elements

end

/-- The value of a tree. Steps are needed for lists only. -/
def eval (steps : Nat) : Tree → m Value
  | number text => integerLiteral text
  | symbol name => evalSymbol name
  | tree@(list _ _ elements) =>
    match steps with
    | 0 => exhausted
    | steps + 1 => inForm tree.tokens (evalElements (eval steps) steps elements)

/-- The value of the last of the trees of a program, or `last` where there is none. -/
def evalProgram (steps : Nat) (last : Value) : List Tree → m Value
  | [] => pure last
  | number text :: _ => malformed (.bareTopLevel text)
  | symbol text :: _ => malformed (.bareTopLevel text)
  | tree@(list _ _ _) :: trees => do
    let v ← eval steps tree
    evalProgram steps v trees

end FlatLisp.Tree

import FlatLisp.Fault

/-! Nesting, which a token list has only through its parens: where a paren closes, and which
operands a run of tokens consists of. -/
namespace FlatLisp.Nesting

/-- The index of the paren that closes the last of `depth + 1` open ones. -/
def closeFrom (index depth : Nat) : List Token → Option Nat
  | [] => none
  | t :: ts =>
    match t.kind, depth with
    | .opening, _ => closeFrom (index + 1) (depth + 1) ts
    | .closing, 0 => some index
    | .closing, depth + 1 => closeFrom (index + 1) depth ts
    | _, _ => closeFrom (index + 1) depth ts

/-- The index of the paren that matches the open one at `index`. -/
def matchParen (tokens : List Token) (index : Nat) : Except Fault Nat :=
  match tokens.drop index with
  | [] => .error (.malformed (.noOpenParen index))
  | t :: ts =>
    if t.isOpen then
      match closeFrom (index + 1) 0 ts with
      | some close => .ok close
      | none => .error (.unbalanced (.unmatchedOpen index))
    else .error (.malformed (.noOpenParen index))

/-- Why a run of operands ends before its tokens do. -/
inductive Break
  | strayClose (index : Nat) (paren : Token)
  | unmatchedOpen (index : Nat)
  deriving DecidableEq, Repr

def Break.fault : Break → Fault
  | strayClose index _ => .unbalanced (.unexpectedClose index)
  | unmatchedOpen index => .unbalanced (.unmatchedOpen index)

/-- Leading operands, and what comes after them if it is no operand. -/
structure Operands where
  complete : List (List Token)
  cutShort : Option Break
  deriving DecidableEq, Repr

def Operands.cons (operand : List Token) (rest : Operands) : Operands :=
  ⟨operand :: rest.complete, rest.cutShort⟩

mutual

/-- The operands at the start of the tokens, the first of which has the given index. -/
def operandsFrom (index : Nat) : List Token → Operands
  | [] => ⟨[], none⟩
  | t :: ts =>
    match t.kind with
    | .opening => formFrom index [t] 0 (index + 1) ts
    | .closing => ⟨[], some (.strayClose index t)⟩
    | .number | .symbol => (operandsFrom (index + 1) ts).cons [t]

/-- The operands from within a form that begins at `start` and whose tokens so far, the last one
first, leave `depth + 1` parens open. -/
def formFrom (start : Nat) (form : List Token) (depth index : Nat) : List Token → Operands
  | [] => ⟨[], some (.unmatchedOpen start)⟩
  | t :: ts =>
    match t.kind, depth with
    | .opening, _ => formFrom start (t :: form) (depth + 1) (index + 1) ts
    | .closing, 0 => (operandsFrom (index + 1) ts).cons (t :: form).reverse
    | .closing, depth + 1 => formFrom start (t :: form) depth (index + 1) ts
    | _, _ => formFrom start (t :: form) depth (index + 1) ts

end

/-- The leading operands: each is one atom, or a form from an open paren to its matching one. -/
def operands (tokens : List Token) : Operands := operandsFrom 0 tokens

/-- All the tokens as operands. -/
def splitOperands (tokens : List Token) : Except Fault (List (List Token)) :=
  let found := operands tokens
  match found.cutShort with
  | none => .ok found.complete
  | some cause => .error cause.fault

/-- The tokens between an open paren in front and a close paren at the end. -/
def enclosed? : List Token → Option (List Token)
  | [] => none
  | t :: ts =>
    match ts.getLast? with
    | some last => if t.isOpen && last.isClose then some ts.dropLast else none
    | none => none

end FlatLisp.Nesting

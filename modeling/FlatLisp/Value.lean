import FlatLisp.Numeral.Decimal

/-! Values: integers and text. There is no other kind, and no null. -/
namespace FlatLisp

inductive Value
  | integer (n : Int64)
  | text (s : String)
  deriving DecidableEq, Repr

namespace Value

/-- Text that reads as an integer stands for the integer. -/
def ofText (s : String) : Value :=
  match Integer.read? s with
  | some n => integer n
  | none => text s

/-- The value as variables hold it. -/
def normalized : Value → Value
  | integer n => integer n
  | text s => ofText s

def toInteger? : Value → Option Int64
  | integer n => some n
  | text s => Integer.read? s

/-- Zero is false, however it is written, and so is the empty text. -/
def isTruthy : Value → Bool
  | integer n => n ≠ 0
  | text s =>
    if s.isEmpty then false
    else
      match Integer.read? s with
      | some n => n ≠ 0
      | none =>
        match Decimal.read? s with
        | some x => x != 0.0
        | none => true

def display : Value → String
  | integer n => Integer.render n
  | text s => s

def empty : Value := text ""

def ofBool (b : Bool) : Value := integer (if b then 1 else 0)

end Value
end FlatLisp

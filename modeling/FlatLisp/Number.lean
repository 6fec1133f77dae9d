import FlatLisp.Value

/-! Numbers, as operators see their operands. Integers are exact while they last; a float on one
side makes a float of both. -/
namespace FlatLisp

inductive Number
  | int (n : Int64)
  | float (x : Float)

namespace Number

def ofText? (s : String) : Option Number :=
  match Integer.read? s with
  | some n => some (int n)
  | none => (Decimal.read? s).map float

def ofValue? : Value → Option Number
  | .integer n => some (int n)
  | .text s => ofText? s

def toFloat : Number → Float
  | int n => Float.ofInt n.toInt
  | float x => x

def isZero : Number → Bool
  | int n => n = 0
  | float x => x == 0.0

/-- A whole float that fits is an integer value and any other finite one is text. -/
def toValue? : Number → Option Value
  | int n => some (.integer n)
  | float x =>
    if x.isFinite then
      match (Binary64.ofFloat x).whole?.bind Integer.fit? with
      | some n => some (.integer n)
      | none => some (.text (Decimal.render x))
    else none

/-- An operation on two numbers, given on integers, where it may have no result, and on floats. -/
def combine (onInts : Int64 → Int64 → Option Int64) (onFloats : Float → Float → Float) :
    Number → Number → Option Number
  | int a, int b => (onInts a b).map int
  | a, b => some (float (onFloats a.toFloat b.toFloat))

def add? : Number → Number → Option Number := combine Integer.add? (· + ·)

def sub? : Number → Number → Option Number := combine Integer.sub? (· - ·)

def mul? : Number → Number → Option Number := combine Integer.mul? (· * ·)

/-- The remainder of two finite floats. -/
def floatRem (a b : Float) : Float := ((Binary64.ofFloat a).rem (Binary64.ofFloat b)).toFloat

def rem? : Number → Number → Option Number := combine Integer.rem? floatRem

/-- The quotient of integers is one only if it is exact. -/
def div? (x y : Number) : Option Number :=
  let inexact := float (x.toFloat / y.toFloat)
  match x, y with
  | int a, int b =>
    (Integer.rem? a b).bind fun r =>
      if r = 0 then (Integer.quot? a b).map int else some inexact
  | _, _ => some inexact

/-- The power of integers is one unless the exponent is negative. -/
def pow? (x y : Number) : Option Number :=
  let inexact := float (x.toFloat.pow y.toFloat)
  match x, y with
  | int base, int exponent =>
    if 0 ≤ exponent then (Integer.pow? base exponent.toInt.toNat).map int else some inexact
  | _, _ => some inexact

/-- How a float compares with another one. -/
def compareFloats (a b : Float) : Option Ordering :=
  if a < b then some .lt else if b < a then some .gt else if a == b then some .eq else none

def compare? : Number → Number → Option Ordering
  | int a, int b => some (compare a.toInt b.toInt)
  | a, b => compareFloats a.toFloat b.toFloat

end Number
end FlatLisp

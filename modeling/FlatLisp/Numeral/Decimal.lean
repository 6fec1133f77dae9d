import FlatLisp.Numeral.Binary64
import FlatLisp.Numeral.Integer

/-! Decimal numerals: how one is read as a floating-point number, and which one is written. -/
namespace FlatLisp

/-- The number `digits * 10 ^ exponent`. -/
structure Decimal where
  digits : Nat
  exponent : Int
  deriving DecidableEq, Repr

namespace Decimal
open Integer (sign digits?)

/-- The powers of ten that floats come near to lie well within `10 ^ ±magnitudeBound`. -/
def magnitudeBound : Nat := 400

/-- The nearest float, if it is finite. Numbers beyond every float are settled by their number of
digits, so that no large power of ten is formed for them. -/
def toFloat? (d : Decimal) : Option Float :=
  let magnitude : Int := (Nat.toDigits 10 d.digits).length + d.exponent
  if d.digits = 0 ∨ magnitude < -magnitudeBound then some 0.0
  else if magnitudeBound < magnitude then none
  else
    let x := Float.ofScientific d.digits (d.exponent < 0) d.exponent.natAbs
    if x.isFinite then some x else none

/-- The exponent part of a numeral: nothing, or a letter, a sign or none, and digits. -/
def exponent? : List Char → Option Int
  | [] => some 0
  | c :: cs =>
    if c = 'e' ∨ c = 'E' then
      let (negative, rest) := sign cs
      (digits? rest).map (Binary64.signed negative)
    else none

/-- The numeral without a sign: digits with at most one point among them, at least one digit, and
an exponent or none. -/
def unsigned? (cs : List Char) : Option Decimal :=
  let whole := cs.takeWhile Char.isDigit
  let (fraction, rest) :=
    match cs.dropWhile Char.isDigit with
    | '.' :: rest => (rest.takeWhile Char.isDigit, rest.dropWhile Char.isDigit)
    | rest => ([], rest)
  match digits? (whole ++ fraction), exponent? rest with
  | some digits, some exponent => some ⟨digits, exponent - fraction.length⟩
  | _, _ => none

/-- The finite floating-point number that a text stands for. -/
def read? (text : String) : Option Float :=
  let (negative, rest) := sign text.toList
  (unsigned? rest).bind fun d => d.toFloat?.map fun x => if negative then -x else x

/-- A positive fraction and the ends of an interval around it, over one denominator. -/
structure Range where
  low : Nat
  value : Nat
  high : Nat
  denominator : Nat
  closed : Bool
  deriving DecidableEq, Repr

/-- The numbers that round to `x`: they reach half way to its neighbours. The one below is at half
the distance when the mantissa is the least of its width. The ends belong to `x` if its mantissa
is even. -/
def Range.around (x : Binary64) : Range :=
  let narrow := x.mantissa = Binary64.leastNormal ∧ Binary64.leastExponent < x.exponent
  let up (n : Nat) := n <<< x.exponent.toNat
  ⟨up (4 * x.mantissa - if narrow then 1 else 2), up (4 * x.mantissa), up (4 * x.mantissa + 2),
    4 <<< (-x.exponent).toNat, x.mantissa % 2 = 0⟩

namespace Range

/-- The exponent of the power of ten that the value reaches and does not exceed tenfold. -/
def leading (r : Range) : Int :=
  if r.denominator ≤ r.value then
    ((Nat.toDigits 10 (r.value / r.denominator)).length - 1 : Nat)
  else -(Nat.toDigits 10 ((r.denominator - 1) / r.value)).length

/-- The nearest multiple of `10 ^ exponent` in the interval, if it has one. Of two that are
equally near it is the greater. -/
def nearest? (r : Range) (exponent : Int) : Option Decimal :=
  let scale := Nat.pow 10 (-exponent).toNat
  let unit := r.denominator * Nat.pow 10 exponent.toNat
  let inside (n : Nat) : Bool :=
    if r.closed then r.low * scale ≤ n * unit && n * unit ≤ r.high * scale
    else r.low * scale < n * unit && n * unit < r.high * scale
  let below := r.value * scale / unit
  let above := below + 1
  match inside below, inside above with
  | true, true =>
    some ⟨if 2 * (r.value * scale) < (below + above) * unit then below else above, exponent⟩
  | true, false => some ⟨below, exponent⟩
  | false, true => some ⟨above, exponent⟩
  | false, false => none

end Range

/-- All the digits of the number. -/
def exact (x : Binary64) : Decimal :=
  ⟨(x.mantissa <<< x.exponent.toNat) * Nat.pow 5 (-x.exponent).toNat, min x.exponent 0⟩

/-- The shortest numeral that is read as the size of `x`: of those with the fewest digits, the
nearest. Seventeen digits are enough for any number. -/
def shortest (x : Binary64) : Decimal :=
  let range := Range.around x
  let found := (List.range 18).findSome? fun (count : Nat) =>
    range.nearest? (range.leading + 1 - count)
  found.getD (exact x)

/-- The number without an exponent, and with a point only in front of further digits. -/
def positional (d : Decimal) : List Char :=
  let digits := Nat.toDigits 10 d.digits
  match d.exponent with
  | .ofNat e => digits ++ List.replicate e '0'
  | .negSucc e =>
    let padded := List.replicate (e + 2 - digits.length) '0' ++ digits
    padded.take (padded.length - (e + 1)) ++ '.' :: padded.drop (padded.length - (e + 1))

/-- A finite float as text. -/
def render (x : Float) : String :=
  let value := Binary64.ofFloat x
  let size := if value.mantissa = 0 then ['0'] else (shortest value).positional
  String.ofList (if value.negative then '-' :: size else size)

end Decimal
end FlatLisp

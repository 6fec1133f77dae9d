/-! Floating-point numbers as exact fractions whose denominators are powers of two. -/
namespace FlatLisp

/-- The number `mantissa * 2 ^ exponent`, or its opposite. -/
structure Binary64 where
  negative : Bool
  mantissa : Nat
  exponent : Int
  deriving DecidableEq, Repr

namespace Binary64

/-- The exponent of the least positive number. -/
def leastExponent : Int := -1074

/-- The least mantissa of full width. -/
def leastNormal : Nat := 1 <<< 52

/-- The value of a finite number: 52 bits of fraction, 11 of exponent and a sign. A number whose
exponent bits are all zero has no leading one. -/
def ofFloat (x : Float) : Binary64 :=
  let bits := x.toBits.toNat
  let fraction := bits % leastNormal
  let scale := (bits >>> 52) % (1 <<< 11)
  let negative := bits >>> 63 = 1
  if scale = 0 then ⟨negative, fraction, leastExponent⟩
  else ⟨negative, leastNormal + fraction, leastExponent + (scale - 1 : Nat)⟩

def signed (negative : Bool) (n : Nat) : Int := if negative then -n else n

/-- The value, if it is a whole number. -/
def whole? (x : Binary64) : Option Int :=
  match x.exponent with
  | .ofNat e => some (signed x.negative (x.mantissa <<< e))
  | .negSucc e =>
    let unit := 1 <<< (e + 1)
    if x.mantissa % unit = 0 then some (signed x.negative (x.mantissa / unit)) else none

/-- The numerator over the denominator `2 ^ -exponent`, which is at least the own one. -/
def numeratorOver (x : Binary64) (exponent : Int) : Nat :=
  x.mantissa <<< (x.exponent - exponent).toNat

/-- The remainder of the quotient of `x` and `y` rounded toward zero. It has the sign of `x`. -/
def rem (x y : Binary64) : Binary64 :=
  let exponent := min x.exponent y.exponent
  ⟨x.negative, x.numeratorOver exponent % y.numeratorOver exponent, exponent⟩

/-- The nearest float to the number. A half to some power is five tenths to that power. -/
def toFloat (x : Binary64) : Float :=
  let size :=
    match x.exponent with
    | .ofNat e => Float.ofNat (x.mantissa <<< e)
    | .negSucc e => Float.ofScientific (x.mantissa * Nat.pow 5 (e + 1)) true (e + 1)
  if x.negative then -size else size

end Binary64
end FlatLisp

/-! Integers of 64 bits: exact arithmetic that says when a result does not fit, and their text. -/
namespace FlatLisp.Integer

/-- The integers of 64 bits are those from `-bound` to `bound - 1`. -/
def bound : Int := 9223372036854775808

/-- The 64-bit integer equal to `n`, if there is one. -/
def fit? (n : Int) : Option Int64 :=
  if -bound ≤ n ∧ n < bound then some (Int64.ofInt n) else none

theorem toInt_of_fit? {n : Int} {k : Int64} (h : fit? n = some k) : k.toInt = n := by
  obtain ⟨⟨hl, hu⟩, rfl⟩ : (-bound ≤ n ∧ n < bound) ∧ Int64.ofInt n = k := by
    simpa [fit?] using h
  exact Int64.toInt_ofInt_of_le hl hu

theorem fit?_toInt (k : Int64) : fit? k.toInt = some k := by
  rw [fit?, if_pos ⟨Int64.le_toInt k, Int64.toInt_lt k⟩, Int64.ofInt_toInt]

def add? (a b : Int64) : Option Int64 := fit? (a.toInt + b.toInt)

def sub? (a b : Int64) : Option Int64 := fit? (a.toInt - b.toInt)

def mul? (a b : Int64) : Option Int64 := fit? (a.toInt * b.toInt)

/-- The quotient, rounded toward zero. -/
def quot? (a b : Int64) : Option Int64 := fit? (a.toInt.tdiv b.toInt)

/-- The remainder of `quot?`. There is none where there is no quotient. -/
def rem? (a b : Int64) : Option Int64 :=
  (quot? a b).map fun _ => Int64.ofInt (a.toInt.tmod b.toInt)

/-- Exponents that are taken have 32 bits. -/
def exponentBound : Nat := 4294967296

/-- The power. For -1, 0 and 1 an exponent counts by its parity alone, and for any other base the
power does not fit once the exponent has reached 64. -/
def pow? (base : Int64) (exponent : Nat) : Option Int64 :=
  if exponentBound ≤ exponent then none
  else if base.toInt.natAbs ≤ 1 then
    fit? (base.toInt.pow (if exponent = 0 then 0 else 2 - exponent % 2))
  else if exponent < 64 then fit? (base.toInt.pow exponent)
  else none

/-- The number that a row of ASCII digits stands for. -/
def digits? (cs : List Char) : Option Nat :=
  if !cs.isEmpty && cs.all Char.isDigit then some (Nat.ofDigitChars 10 cs 0) else none

/-- A sign, or none for plus, is read off the front: whether it is a minus, and the rest. -/
def sign (cs : List Char) : Bool × List Char :=
  match cs with
  | '-' :: rest => (true, rest)
  | '+' :: rest => (false, rest)
  | _ => (false, cs)

/-- The integer that a text stands for: a sign or none, then digits, and within 64 bits. -/
def read? (text : String) : Option Int64 :=
  let (negative, rest) := sign text.toList
  (digits? rest).bind fun n => fit? (if negative then -n else n)

def render (n : Int64) : String := toString n.toInt

end FlatLisp.Integer

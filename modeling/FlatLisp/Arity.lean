/-! The numbers of operands that an operation accepts. -/
namespace FlatLisp

inductive Arity
  | exact (n : Nat)
  | atLeast (n : Nat)
  | range (min max : Nat)
  | any
  deriving DecidableEq, Repr

namespace Arity

def accepts (count : Nat) : Arity → Bool
  | exact n => count = n
  | atLeast n => n ≤ count
  | range min max => min ≤ count && count ≤ max
  | any => true

def describe : Arity → String
  | exact n => s!"exactly {n}"
  | atLeast n => s!"at least {n}"
  | range min max => s!"{min} to {max}"
  | any => "any number of"

end Arity
end FlatLisp

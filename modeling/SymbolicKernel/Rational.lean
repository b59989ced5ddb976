import SymbolicKernel.Numeral
import SymbolicKernel.Rounding

/-!
Rational numbers: a whole number times a power of a base, rounding to a whole number, order, and the
written form.
-/
namespace SymbolicKernel.Rational

/-- `significand * base ^ exponent`, exactly, for an exponent of either sign. -/
def scaled (significand : Int) (base : Nat) (exponent : Int) : Rat :=
  mkRat (significand * (base : Int) ^ exponent.toNat) (base ^ (-exponent).toNat)

/-- The whole number nearest to `x`; a tie is decided on the magnitude, so it goes the same way for `-x`. -/
def round (tie : Tie) (x : Rat) : Int :=
  x.num.sign * roundDiv tie x.num.natAbs x.den

def compare (x y : Rat) : Ordering :=
  if x < y then .lt else if x = y then .eq else .gt

/-- A rational in lowest terms, without the denominator when that is one. -/
def text (x : Rat) : String :=
  if x.den = 1 then x.num.repr else x.num.repr ++ "/" ++ x.den.repr

end SymbolicKernel.Rational

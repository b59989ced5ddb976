import SymbolicKernel.Double.Basic

/-!
The double nearest to an exact number, a tie going to the even code. All conversions to doubles and all
arithmetic on them are an exact calculation followed by this one rounding.
-/
namespace SymbolicKernel

/-- The code nearest to `p / q`. The quotient is rounded once, to the spacing of the doubles at its order of
magnitude; a mantissa that rounds up to the next power of two is the first code of the next order, so the
sum below is right in that case too. -/
def nearestCode (p q : Nat) : Nat :=
  if p = 0 then 0
  else
    let e := max (Numeral.order 2 p q) (-1022)
    let m := roundDiv .toEven (p * 2 ^ (52 - e).toNat) (q * 2 ^ (e - 52).toNat)
    min (m + (e + 1022).toNat * 2 ^ 52) infinityCode

/-- The code nearest to `n * 10 ^ exponent`. Numbers of an order of magnitude that is far outside that of the
doubles are settled without building the power. -/
def nearestDecimalCode (n : Nat) (exponent : Int) : Nat :=
  let order := Numeral.length 10 n + exponent
  if n = 0 ∨ order < -330 then 0
  else if 310 < order then infinityCode
  else nearestCode (n * 10 ^ exponent.toNat) (10 ^ (-exponent).toNat)

namespace Double

/-- The double nearest to a rational. What underflows keeps its sign; zero itself is positive. -/
def ofRat (x : Rat) : Double :=
  ofCode (x.num < 0) (nearestCode x.num.natAbs x.den)

def ofDecimal (significand : Int) (exponent : Int) : Double :=
  ofCode (significand < 0) (nearestDecimalCode significand.natAbs exponent)

def ofInt (n : Int) : Double :=
  ofDecimal n 0

/-- The sum. It is exactly zero only for two negative zeros with a negative sign. -/
def add : Double → Double → Double
  | finite x, finite y =>
    let sum := x.toRat + y.toRat
    if sum = 0 then finite { MachineReal.zero with negative := x.negative && y.negative } else ofRat sum
  | nan, _ => nan
  | _, nan => nan
  | infinite a, infinite b => if a = b then infinite a else nan
  | infinite a, finite _ => infinite a
  | finite _, infinite b => infinite b

/-- The product, with the sign that the signs of the factors give. -/
def mul : Double → Double → Double
  | finite x, finite y =>
    let product := x.toRat * y.toRat
    ofCode (x.negative != y.negative) (nearestCode product.num.natAbs product.den)
  | nan, _ => nan
  | _, nan => nan
  | infinite a, infinite b => infinite (a != b)
  | infinite a, finite y => if y.code = 0 then nan else infinite (a != y.negative)
  | finite x, infinite b => if x.code = 0 then nan else infinite (x.negative != b)

def atLeast (bound : Nat) : Double → Bool
  | finite x => (bound : Rat) ≤ x.toRat
  | infinite negative => !negative
  | nan => false

end Double

end SymbolicKernel

import SymbolicKernel.Decimal.Basic

/-!
Rational numbers as decimals of a given number of digits.
-/
namespace SymbolicKernel.Decimal

/-- The quotient of two whole numbers at a working precision. A quotient of the significands that leaves no
remainder is exact; any other is carried to at least `working` digits and its last digit rounded, a half
upwards in magnitude. -/
def quotient (n : Int) (d : Nat) (working : Nat) : Decimal :=
  let (a, zerosAbove) := Numeral.stripZeros n.natAbs
  let (b, zerosBelow) := Numeral.stripZeros d
  let exponent : Int := (zerosAbove : Int) - zerosBelow
  let negative := n < 0
  if a % b = 0 then ofScaled (Numeral.withSign negative (a / b)) exponent working
  else
    let shift :=
      if a / b = 0 then Numeral.length 10 b + working - Numeral.length 10 (a % b)
      else working - Numeral.length 10 (a / b)
    let digits := roundDiv .awayFromZero (a * 10 ^ shift) b
    ofScaled (Numeral.withSign negative digits) (exponent - shift) working

/-- A rational to `digits` significant digits, at least one. The working precision exceeds the digits asked for
and those of both sides of the fraction by two. It has 64 bits, so `digits` stands for numbers below `2 ^ 64 - 2`; for
greater ones the sum would wrap around. -/
def ofRat (x : Rat) (digits : Nat) : Decimal :=
  let digits := max digits 1
  let working := max digits (max (Numeral.writtenLength x.num.natAbs) (Numeral.writtenLength x.den)) + 2
  (quotient x.num x.den working).withPrecision digits

end SymbolicKernel.Decimal

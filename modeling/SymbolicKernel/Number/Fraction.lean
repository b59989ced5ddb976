import SymbolicKernel.Rational
import SymbolicKernel.Number.Error

/-!
Building rational numbers from a numerator and a denominator.
-/
namespace SymbolicKernel.Rational

/-- The quotient of two whole numbers in lowest terms, unless the second is zero. -/
def ofFraction (p q : Int) : Except NumberError Rat :=
  if q = 0 then .error .zeroDenominator else .ok (mkRat (p * q.sign) q.natAbs)

def inspect (x : Rat) : String :=
  "Rational(" ++ text x ++ ")"

end SymbolicKernel.Rational

import SymbolicKernel.Double.Nearest

/-!
The decimal logarithm of a double, as the double nearest to it.
-/
namespace SymbolicKernel.Double

/-- Binary digits kept behind the point while squaring. -/
def logScale : Nat := 512

/-- The first `count` binary digits of the decimal logarithm of a number between one and ten, given in units of
`2 ^ -logScale`. Squaring doubles the logarithm: the next digit is one exactly when the square reaches ten,
and it is then divided by ten. -/
def log10Digits : (count : Nat) → Nat → Nat
  | 0, _ => 0
  | count + 1, y =>
    let square := y * y / 2 ^ logScale
    if 10 * 2 ^ logScale ≤ square then 2 ^ count + log10Digits count (square / 10)
    else log10Digits count square

/-- Number of binary digits that are computed of a logarithm. They outnumber by far those of a double, so that
the rounding of the logarithm to a double is not affected. -/
def logDigits : Nat := 192

/-- The decimal logarithm of `p / q`: exact for a power of ten, else the middle of the interval that the
computed digits leave. -/
def log10Rat (p q : Nat) : Rat :=
  let k := Numeral.order 10 p q
  let low := q * 10 ^ k.toNat
  let high := p * 10 ^ (-k).toNat
  if high = low then k
  else k + mkRat (2 * log10Digits logDigits (high * 2 ^ logScale / low) + 1) (2 ^ (logDigits + 1))

/-- The decimal logarithm; that of a zero is the negative infinity, and negative numbers have none. -/
def log10 : Double → Double
  | finite x =>
    if x.code = 0 then infinite true
    else if x.negative then nan
    else ofRat (log10Rat x.toRat.num.natAbs x.toRat.den)
  | infinite negative => if negative then nan else infinite false
  | nan => nan

end SymbolicKernel.Double

import SymbolicKernel.Double.Nearest
import SymbolicKernel.Text.Positional

/-!
Decimal floating-point numbers with a precision, which says from how many digits down a decimal can be rounded; it does
not bound the digits that there are. The significand never ends in a zero, so equal values have equal parts.

Decimals are finite. A stored exponent has 64 bits, which stripping zeros and rounding can exceed only from an exponent
near their limit, for numbers in memory have far fewer digits. Such exponents are written in texts, and what is made of
a text wraps around as the exponent does, see `raisedFrom`. All other calculations here take exponents of any size.
-/
namespace SymbolicKernel

/-- A significand without trailing zeros, and exponent zero for the number zero. -/
def Decimal.Normal (significand exponent : Int) : Prop :=
  if significand = 0 then exponent = 0 else significand % 10 ≠ 0

/-- The number `significand * 10 ^ exponent`. Precision zero stands for an unlimited one. -/
structure Decimal where
  significand : Int
  exponent : Int
  precision : Nat
  normal : Decimal.Normal significand exponent
  deriving DecidableEq

namespace Decimal

/-- The significand without its trailing zeros, and the exponent raised by their number. -/
def normalize (significand exponent : Int) : Int × Int :=
  if significand = 0 then (0, 0)
  else
    let stripped := Numeral.stripZeros significand.natAbs
    (Numeral.withSign (significand < 0) stripped.1, exponent + stripped.2)

theorem normalize_normal (significand exponent : Int) :
    Normal (normalize significand exponent).1 (normalize significand exponent).2 := by
  unfold normalize
  split
  · simp [Normal]
  · rename_i nonzero
    have last := (Numeral.stripZeros_spec (n := significand.natAbs) (by omega)).2
    simp only [Normal, Numeral.withSign]
    split <;> split <;> omega

/-- The decimal `significand * 10 ^ exponent` with a given precision, unrounded. -/
def ofScaled (significand exponent : Int) (precision : Nat) : Decimal :=
  ⟨(normalize significand exponent).1, (normalize significand exponent).2, precision,
    normalize_normal significand exponent⟩

/-- The decimal `significand * 10 ^ exponent`, as precise as the significand has digits, trailing zeros
included. -/
def ofParts (significand exponent : Int) : Decimal :=
  ofScaled significand exponent (Numeral.writtenLength significand.natAbs)

def digits (x : Decimal) : Nat :=
  Numeral.length 10 x.significand.natAbs

/-- The decimal at another precision. It is rounded, half away from zero, only if the new precision is a
limit below the present one and the significand is longer than the new precision. -/
def withPrecision (x : Decimal) (precision : Nat) : Decimal :=
  if 0 < precision ∧ precision < x.precision ∧ precision < x.digits then
    let excess := x.digits - precision
    let rounded := roundDiv .awayFromZero x.significand.natAbs (10 ^ excess)
    ofScaled (Numeral.withSign (x.significand < 0) rounded) (x.exponent + excess) precision
  else { x with precision := precision }

theorem wrap_normal (x : Decimal) : Normal x.significand (Numeral.wrap x.exponent) := by
  have normal := x.normal
  unfold Normal at normal ⊢
  split
  · rename_i zero
    rw [if_pos zero] at normal
    rw [normal, Numeral.wrap_zero]
  · rename_i nonzero
    rwa [if_neg nonzero] at normal

/-- The decimal with what 64 bits keep of its exponent. -/
def wrap (x : Decimal) : Decimal :=
  ⟨x.significand, Numeral.wrap x.exponent, x.precision, x.wrap_normal⟩

/-- A decimal whose exponent was raised from a given one, by the zeros stripped and the digits rounded away. Past the
greatest number of 64 bits it starts again at the least. No number has `2 ^ 63` digits, so only a positive exponent can
be raised so far. -/
def raisedFrom (exponent : Int) (x : Decimal) : Decimal :=
  if 0 < exponent then x.wrap else x

def toRat (x : Decimal) : Rat :=
  Rational.scaled x.significand 10 x.exponent

def toDouble (x : Decimal) : Double :=
  Double.ofDecimal x.significand x.exponent

/-- All digits in positional notation, never with an exponent. -/
def text (x : Decimal) : String :=
  String.ofList (Text.signed (x.significand < 0)
    (Text.positional (Numeral.decimalDigits x.significand.natAbs) x.exponent))

end Decimal

end SymbolicKernel

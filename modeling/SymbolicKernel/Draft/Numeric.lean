import SymbolicKernel.Double.Log10
import SymbolicKernel.Double.Reader
import SymbolicKernel.Draft.Basic
import SymbolicKernel.Tree.Literal

/-!
The kind of number that a literal becomes. A literal without a point and without a suffix is exact. Any other is
a machine real, unless its digits are more than a machine real can tell apart or its suffix asks for a precision
or an accuracy.
-/
namespace SymbolicKernel.Literal

def refuse {α : Type} (l : Literal) : Except LowerError α :=
  .error (.malformedNumber l.text)

/-- The base to the power of an exponent's magnitude, which 32 bits must hold. -/
def power (l : Literal) (exponent : Int) : Except LowerError Int :=
  if exponent.natAbs < 2 ^ 32 then .ok ((l.base : Int) ^ exponent.natAbs) else l.refuse

/-- Digits of the base as a whole number, with the sign of the literal. -/
def readDigits (l : Literal) (digits : String) : Except LowerError Int := do
  let magnitude ← (Integer.ofText digits l.base).mapError .number
  return if l.negative then -magnitude else magnitude

/-- An exact literal: a whole number, or for a negative exponent a quotient. -/
def exact (l : Literal) : Except LowerError Draft := do
  let significand ← l.readDigits l.digits
  let power ← l.power l.exponent
  return if l.exponent < 0 then .rational significand power else .integer (significand * power)

/-- A count of digits, refused if it is not finite. -/
def finiteDigits (l : Literal) (digits : Double) : Except LowerError Double :=
  if digits.finite?.isSome then .ok digits else l.refuse

/-- The double that a text denotes. -/
def readDouble (l : Literal) (text : String) : Except LowerError Double :=
  match Double.ofText? text with
  | some x => .ok x
  | none => l.refuse

/-- The number that a suffix denotes. It must be finite. -/
def suffixNumber (l : Literal) (text : String) : Except LowerError Double := do
  l.finiteDigits (← l.readDouble text)

/-- Digits behind the point as significant digits of a number of the given magnitude; zero has no magnitude. -/
def addMagnitude (digits magnitude : Double) : Double :=
  if magnitude.isZero then digits else digits.add magnitude.log10

/-- From this number of digits on, a literal is more than a machine real. -/
def machineThreshold : Nat := Precision.reconstructDigits Precision.machineBits

/-- A literal's digits with their point in place, the one that a suffix implies included, and the exponent. -/
def decimalText (l : Literal) : String :=
  let mantissa := if l.hasPoint then l.digits else l.digits ++ "."
  let power := if l.exponent = 0 then "" else "E" ++ l.exponent.repr
  mantissa ++ power

/-- The kind of an inexact literal in base ten whose digits and exponent are read as `magnitude`. -/
def classifyDecimal (l : Literal) (magnitude : Double) : Except LowerError Draft := do
  let machine := Draft.machine (if l.negative then magnitude.neg else magnitude)
  let precise := Draft.precise (.text ((if l.negative then "-" else "") ++ l.decimalText))
  let digits := l.parts.1.length + l.parts.2.length
  match l.suffixKind with
  | .absent => return if digits < machineThreshold then machine else precise (Double.ofInt digits)
  | .machine => return machine
  | .accuracy text =>
    let accuracy ← l.suffixNumber text
    return precise (← l.finiteDigits (addMagnitude accuracy magnitude))
  | .precision text => return precise (← l.suffixNumber text)

/-- An inexact literal in base ten. -/
def decimalReal (l : Literal) : Except LowerError Draft := do
  l.classifyDecimal (← l.readDouble l.decimalText)

/-- The kind of an inexact literal in another base that is the quotient of `p` and `q`, and `x` as a double. Its digit
counts are scaled to decimal digits. -/
def classifyRatio (l : Literal) (p q : Int) (x : Double) : Except LowerError Draft := do
  let digitsPerPlace := (Double.ofInt l.base).log10
  let precise := fun digits => (l.finiteDigits digits).map (Draft.precise (.ratio p q))
  match l.suffixKind with
  | .absent =>
    let digits := addMagnitude ((Double.ofInt l.parts.2.length).mul digitsPerPlace) x.abs
    if digits.atLeast machineThreshold then precise digits else return .machine x
  | .machine => return .machine x
  | .accuracy text =>
    let accuracy ← l.suffixNumber text
    precise (addMagnitude (accuracy.mul digitsPerPlace) x.abs)
  | .precision text =>
    let digits ← l.suffixNumber text
    precise (digits.mul digitsPerPlace)

/-- An inexact literal in another base. The quotient that it is classified by is kept as it was written. -/
def radixReal (l : Literal) : Except LowerError Draft := do
  let (whole, fraction) := l.parts
  let significand ← l.readDigits (String.ofList (whole ++ fraction))
  let exponent := l.exponent - fraction.length
  let power ← l.power exponent
  let (p, q) := if 0 ≤ exponent then (significand * power, 1) else (significand, power)
  let value ← (Rational.ofFraction p q).mapError .number
  l.classifyRatio p q (Double.ofRat value)

def toDraft (l : Literal) : Except LowerError Draft :=
  if !l.isWellFormed then l.refuse
  else if !l.hasPoint && l.suffix.isNone then l.exact
  else if l.base = 10 then l.decimalReal
  else l.radixReal

end SymbolicKernel.Literal

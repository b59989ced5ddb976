import SymbolicKernel.Decimal.Basic
import SymbolicKernel.Number.Error
import SymbolicKernel.Text.Blank

/-!
Reading decimals: an optional sign, digits with at most one point, and an optional exponent after `e`, `E` or
`*^`, with blanks allowed around the whole. Exponents have 64 bits. One that does not fit in them is refused where it is
written, but wraps around where it is calculated, as in any arithmetic that goes unchecked.
-/
namespace SymbolicKernel

/-- The number `significand * 10 ^ exponent` as it was written, trailing zeros included. -/
structure WrittenDecimal where
  significand : Int
  exponent : Int
  deriving DecidableEq

namespace WrittenDecimal

/-- A text before and after its first `*^`, if it has one. -/
def splitAtPower : List Char → Option (List Char × List Char)
  | [] => none
  | '*' :: '^' :: rest => some ([], rest)
  | c :: rest => (splitAtPower rest).map fun (before, after) => (c :: before, after)

/-- A text before and after its first occurrence of one of the given characters, if it has one. -/
def splitAtAny (marks : List Char) (text : List Char) : Option (List Char × List Char) :=
  match text.dropWhile (! marks.contains ·) with
  | [] => none
  | _ :: after => some (text.takeWhile (! marks.contains ·), after)

/-- The mantissa of a text and, if there is a mark for it, the exponent. `*^` is looked for first, anywhere
in the text. -/
def splitExponent (text : List Char) : List Char × Option (List Char) :=
  match (splitAtPower text).or (splitAtAny ['e', 'E'] text) with
  | some (mantissa, exponent) => (mantissa, some exponent)
  | none => (text, none)

/-- The value of an exponent: any number of plus signs, then a whole number of 64 bits. -/
def readExponent (text : List Char) : Option Int :=
  (Numeral.readInt (text.dropWhile (· = '+'))).filter fun n => -2 ^ 63 ≤ n ∧ n < 2 ^ 63

/-- The digits of an unsigned mantissa before and after the point. -/
def splitPoint (mantissa : List Char) : List Char × List Char :=
  (splitAtAny ['.'] mantissa).getD (mantissa, [])

/-- An exponent less the number of places behind the point. Below the least number of 64 bits it starts again at the
greatest. No text has `2 ^ 63` places, so only a negative exponent can be lowered so far. -/
def lowered (exponent : Int) (places : Nat) : Int :=
  if exponent < 0 then Numeral.wrap (exponent - places) else exponent - places

/-- The number a text denotes, if it is well formed. -/
def read? (text : List Char) : Option WrittenDecimal :=
  let (mantissa, exponentText) := splitExponent (Text.trim text)
  let (negative, unsigned) := Numeral.splitSign mantissa
  let (whole, fraction) := splitPoint unsigned
  let digits := whole ++ fraction
  let exponent := match exponentText with
    | some text => readExponent text
    | none => some 0
  if digits ≠ [] ∧ digits.all Char.isDigit then
    exponent.map fun e => ⟨Numeral.withSign negative (Numeral.valueOf 10 digits), lowered e fraction.length⟩
  else none

/-- The number a text denotes. Every refusal names the whole text. -/
def ofText (text : String) : Except NumberError WrittenDecimal :=
  match read? text.toList with
  | some x => .ok x
  | none => .error (.malformedLiteral text)

end WrittenDecimal

/-- The decimal of a written number, its exponent kept in 64 bits. -/
def Decimal.ofWritten (x : WrittenDecimal) : Decimal :=
  (ofParts x.significand x.exponent).raisedFrom x.exponent

end SymbolicKernel

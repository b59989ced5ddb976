import SymbolicKernel.Double.Nearest
import SymbolicKernel.Text.Positional

/-!
Writing finite doubles with the fewest decimal digits that read back, and of those with the nearest ones.
-/
namespace SymbolicKernel

/-- A code's value on the grid of decimals with `count` digits: the exponent of the grid, and the value in its
units as a quotient. -/
def decimalGrid (code count : Nat) : Int × Nat × Nat :=
  let e := codeExponent code
  let p := codeMantissa code * 2 ^ e.toNat
  let q := 2 ^ (-e).toNat
  let unit := Numeral.order 10 p q + 1 - count
  (unit, p * 10 ^ (-unit).toNat, q * 10 ^ unit.toNat)

/-- The decimal of `count` digits that is nearest to a code's value among its two neighbours on the grid which
read back as the code; halfway between them, the upper one. -/
def decimalOfLength (code count : Nat) : Option (Nat × Int) :=
  let (unit, p, q) := decimalGrid code count
  let readsBack := fun n => nearestDecimalCode n unit = code
  let below := p / q
  if readsBack below ∧ (2 * (p % q) < q ∨ ¬ readsBack (below + 1)) then some (below, unit)
  else if readsBack (below + 1) then some (below + 1, unit)
  else none

/-- The first decimal that reads back, among those of `count` digits and up to `tries` more. With all tries
spent the nearest decimal is taken: from seventeen digits on it always reads back. -/
def shortestFrom (code : Nat) : (tries count : Nat) → Nat × Int
  | 0, count =>
    let (unit, p, q) := decimalGrid code count
    (roundDiv .awayFromZero p q, unit)
  | tries + 1, count => (decimalOfLength code count).getD (shortestFrom code tries (count + 1))

/-- The shortest decimal that reads back as a code, without trailing zeros, and its exponent. -/
def shortestDecimal (code : Nat) : Nat × Int :=
  if code = 0 then (0, 0)
  else
    let (n, unit) := shortestFrom code 16 1
    let (digits, zeros) := Numeral.stripZeros n
    (digits, unit + zeros)

namespace MachineReal

def isWhole (x : MachineReal) : Bool :=
  x.toRat.den == 1

/-- The shortest digits in positional notation, with the sign, also that of a zero. -/
def plainText (x : MachineReal) : String :=
  let (n, exponent) := shortestDecimal x.code
  String.ofList (Text.signed x.negative (Text.positional (Numeral.decimalDigits n) exponent))

/-- A double as the kernel shows it: a whole number below `10 ^ 16` ends in a point, which tells it from an
exact integer. -/
def text (x : MachineReal) : String :=
  if x.isWhole ∧ x.toRat.num.natAbs < 10 ^ 16 then x.plainText ++ "." else x.plainText

/-- The shortest digits with one of them before the point and a power of ten behind them. -/
def scientificText (x : MachineReal) : String :=
  let (n, exponent) := shortestDecimal x.code
  let digits := Numeral.decimalDigits n
  let fraction := digits.drop 1
  let mantissa := digits.take 1 ++ (if fraction.isEmpty then [] else '.' :: fraction)
  let power : Int := exponent + fraction.length
  String.ofList (Text.signed x.negative mantissa) ++ "e" ++ power.repr

/-- The text for inspection: a whole number has one decimal place, and numbers from `10 ^ 16` on or below
`10 ^ -4` are in scientific notation. -/
def numeralText (x : MachineReal) : String :=
  let magnitude : Rat := x.toRat.abs
  if x.code ≠ 0 ∧ (magnitude < mkRat 1 10000 ∨ mkRat (10 ^ 16) 1 ≤ magnitude) then x.scientificText
  else if x.isWhole then x.plainText ++ ".0"
  else x.plainText

def inspect (x : MachineReal) : String :=
  "MachineReal(" ++ x.numeralText ++ ")"

end MachineReal

end SymbolicKernel

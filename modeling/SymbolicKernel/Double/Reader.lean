import SymbolicKernel.Double.Nearest

/-!
Reading a double from a text: an optional sign, then `inf`, `infinity` or `nan` in any case, or digits with at
most one point and an optional exponent. No blanks and no separators are allowed.
-/
namespace SymbolicKernel.Double

/-- An unsigned decimal: digits with at most one point among or around them, at least one digit, and an
optional exponent after `e` or `E`. The result is a whole number and the power of ten it is multiplied by. -/
def readDecimal (text : List Char) : Option (Nat × Int) :=
  let whole := text.takeWhile Char.isDigit
  let afterWhole := text.dropWhile Char.isDigit
  let (fraction, rest) : List Char × List Char :=
    match afterWhole with
    | '.' :: more => (more.takeWhile Char.isDigit, more.dropWhile Char.isDigit)
    | more => ([], more)
  let exponent : Option Int :=
    match rest with
    | [] => some 0
    | c :: more => if c = 'e' ∨ c = 'E' then Numeral.readInt more else none
  if whole = [] ∧ fraction = [] then none
  else exponent.map fun e => (Numeral.valueOf 10 (whole ++ fraction), e - fraction.length)

/-- The double that a text denotes, correctly rounded; a magnitude out of range gives an infinity. -/
def ofText? (text : String) : Option Double :=
  let (negative, body) := Numeral.splitSign text.toList
  let word := String.ofList (body.map Char.toLower)
  if word = "inf" ∨ word = "infinity" then some (infinite negative)
  else if word = "nan" then some nan
  else (readDecimal body).map fun (n, exponent) => ofCode negative (nearestDecimalCode n exponent)

end SymbolicKernel.Double

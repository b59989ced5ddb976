import SymbolicKernel.Decimal.Basic
import SymbolicKernel.Number.Error

/-!
Whole numbers: reading them in a base, and their decimal and double forms.
-/
namespace SymbolicKernel.Integer

/-- The whole number that a text denotes in a base from 2 to 36. -/
def ofText (text : String) (base : Nat) : Except NumberError Int :=
  match Numeral.readIntInBase base text.toList with
  | some n => .ok n
  | none => .error (.malformedLiteral (text ++ " (base " ++ base.repr ++ ")"))

/-- The same number as a decimal, as precise as it has digits. -/
def toDecimal (n : Int) : Decimal :=
  Decimal.ofParts n 0

/-- The number itself if 64 bits can hold it. -/
def toWord64? (n : Int) : Option Int :=
  if -2 ^ 63 ≤ n ∧ n < 2 ^ 63 then some n else none

def inspect (n : Int) : String :=
  "Integer(" ++ n.repr ++ ")"

end SymbolicKernel.Integer

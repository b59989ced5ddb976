import SymbolicKernel.Numeral

/-!
Number literals as they are written: digits in a base with at most one point, a sign, a power of the base, and a
suffix that asks for a precision or an accuracy.
-/
namespace SymbolicKernel

structure Literal where
  negative : Bool
  digits : String
  base : Nat
  exponent : Int
  suffix : Option String
  deriving DecidableEq

namespace Literal

/-- The positive literal in base ten with nothing behind its digits. -/
def decimal (digits : String) : Literal := ⟨false, digits, 10, 0, none⟩

def withBase (base : Nat) (l : Literal) : Literal := { l with base := base }

def withExponent (exponent : Int) (l : Literal) : Literal := { l with exponent := exponent }

def withSuffix (suffix : String) (l : Literal) : Literal := { l with suffix := some suffix }

def negated (l : Literal) : Literal := { l with negative := !l.negative }

def text (l : Literal) : String :=
  let sign := if l.negative then "-" else ""
  let base := if l.base = 10 then "" else l.base.repr ++ "^^"
  let suffix := match l.suffix with
    | some suffix => "`" ++ suffix
    | none => ""
  let power := if l.exponent = 0 then "" else "*^" ++ l.exponent.repr
  sign ++ base ++ l.digits ++ suffix ++ power

/-- The digits before and after the point; without a point they all come before it. -/
def parts (l : Literal) : List Char × List Char :=
  let whole := l.digits.toList.takeWhile (· ≠ '.')
  (whole, l.digits.toList.drop (whole.length + 1))

def hasPoint (l : Literal) : Bool := l.digits.toList.contains '.'

/-- Whether the base can be written with digits and letters and the literal has digits of this base, at least
one of them, and at most one point. -/
def isWellFormed (l : Literal) : Bool :=
  let marks := l.digits.toList.filter (· ≠ '.')
  2 ≤ l.base && l.base ≤ 36 && l.digits.toList.count '.' ≤ 1 && !marks.isEmpty &&
    marks.all (Numeral.isDigitOf l.base)

/-- What the suffix asks for: nothing, a machine real, digits behind the point, or significant digits. -/
inductive Suffix where
  | absent
  | machine
  | accuracy (text : String)
  | precision (text : String)

/-- An empty suffix asks for a machine real; one with a back-quote of its own for an accuracy. -/
def suffixKind (l : Literal) : Suffix :=
  match l.suffix with
  | none => .absent
  | some suffix =>
    match suffix.toList with
    | [] => .machine
    | '\x60' :: accuracy => .accuracy (String.ofList accuracy)
    | precision => .precision (String.ofList precision)

end Literal

end SymbolicKernel

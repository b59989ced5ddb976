import SymbolicKernel.Decimal.Quotient
import SymbolicKernel.Decimal.Reader
import SymbolicKernel.Precision

/-!
Reals of any precision: a decimal and the precision in bits that it is known to.
-/
namespace SymbolicKernel

structure PrecisionReal where
  value : Decimal
  bits : Nat
  deriving DecidableEq

namespace PrecisionReal

/-- The real of a given precision in bits, its value taken to the digits that this precision is worth. A value that is
not more precise than that is stored as it is, however many digits it has. -/
def ofDecimal (value : Decimal) (bits : Nat) : PrecisionReal :=
  ⟨value.withPrecision (Precision.bitsToDigits bits), bits⟩

def withDigits (value : Decimal) (digits : Nat) : PrecisionReal :=
  ofDecimal value (Precision.digitsToBits digits)

def ofRat (x : Rat) (digits : Nat) : PrecisionReal :=
  withDigits (Decimal.ofRat x digits) digits

/-- The real of a written number. Its exponent is kept in 64 bits after it is rounded, too. -/
def ofWritten (x : WrittenDecimal) (bits : Nat) : PrecisionReal :=
  ⟨((Decimal.ofWritten x).withPrecision (Precision.bitsToDigits bits)).raisedFrom x.exponent, bits⟩

def ofText (text : String) (digits : Nat) : Except NumberError PrecisionReal :=
  (WrittenDecimal.ofText text).map fun x => ofWritten x (Precision.digitsToBits digits)

def digits (x : PrecisionReal) : Nat :=
  Precision.bitsToDigits x.bits

def toRat (x : PrecisionReal) : Rat :=
  x.value.toRat

def toDouble (x : PrecisionReal) : Double :=
  x.value.toDouble

/-- The digits of the value, then the precision behind a back-quote. -/
def text (x : PrecisionReal) : String :=
  x.value.text ++ "`" ++ x.digits.repr

def inspect (x : PrecisionReal) : String :=
  "PrecisionReal(" ++ x.value.text ++ ", " ++ x.bits.repr ++ " bits)"

end PrecisionReal

end SymbolicKernel

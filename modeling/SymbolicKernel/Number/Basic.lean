import SymbolicKernel.Number.Real

/-!
Numbers: the reals, and complex numbers with two real parts.
-/
namespace SymbolicKernel

inductive Number where
  | real (x : RealNumber)
  | complex (re im : RealNumber)
  deriving DecidableEq

namespace Number

def integer (n : Int) : Number := real (.integer n)

def kind : Number → Kind
  | real x => x.kind
  | complex _ _ => .complex

def isExactZero : Number → Bool
  | real (.integer n) => n == 0
  | _ => false

/-- The complex number of two real parts. An imaginary part that is exactly zero leaves the real part alone, and
a machine real makes its partner a machine real. -/
def ofReals (re im : RealNumber) : Except NumberError Number :=
  if im = .integer 0 then .ok (real re)
  else if re.isMachine then im.toMachine.map fun im => complex re (.machine im)
  else if im.isMachine then re.toMachine.map fun re => complex (.machine re) im
  else .ok (complex re im)

def toPart : Number → Except NumberError RealNumber
  | real x => .ok x
  | complex _ _ => .error (.invalidComponent .complex)

/-- The complex number of two parts, which must be real numbers. -/
def ofParts (re im : Number) : Except NumberError Number := do
  let re ← re.toPart
  let im ← im.toPart
  ofReals re im

/-- The same number to a number of decimal digits, or in machine reals if none is given. The parts of a complex
number are converted one by one and joined anew. -/
def coerce (digits : Option Nat) : Number → Except NumberError Number
  | real x => (x.coerce digits).map real
  | complex re im => do
    let re ← re.coerce digits
    let im ← im.coerce digits
    ofReals re im

/-- The precision in bits, which only inexact real numbers have. -/
def precision : Number → Except NumberError Nat
  | real x => x.precision
  | complex _ _ => .error (.unsupported .precision .complex)

/-- Identity of numbers: part by part for complex numbers. -/
def same : Number → Number → Bool
  | real a, real b => a.same b
  | complex a b, complex c d => a.same c && b.same d
  | _, _ => false

/-- The nearest double; complex numbers have none. -/
def toDouble? : Number → Option Double
  | real x => some x.toDouble
  | complex _ _ => none

def toDoubles : Number → Double × Double
  | real x => (x.toDouble, .finite .zero)
  | complex re im => (re.toDouble, im.toDouble)

def text : Number → String
  | real x => x.text
  | complex re im => "Complex[" ++ re.text ++ ", " ++ im.text ++ "]"

def inspect : Number → String
  | real x => x.inspect
  | complex re im => "Complex(Complex \x7b real: " ++ re.inspect ++ ", imag: " ++ im.inspect ++ " \x7d)"

end Number

end SymbolicKernel

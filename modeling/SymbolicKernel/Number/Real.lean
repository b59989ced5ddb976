import SymbolicKernel.Double.Shortest
import SymbolicKernel.Number.Fraction
import SymbolicKernel.Number.Integer
import SymbolicKernel.Number.PrecisionReal

/-!
Real numbers of the four kinds, and the choice between a machine real and a real of higher precision when one
is made from a text or from another number.
-/
namespace SymbolicKernel

inductive RealNumber where
  | integer (n : Int)
  | rational (x : Rat)
  | machine (x : MachineReal)
  | precise (x : PrecisionReal)
  deriving DecidableEq

/-- The machine real of a double, which must be finite. -/
def MachineReal.ofDouble (x : Double) : Except NumberError MachineReal :=
  match x.finite? with
  | some y => .ok y
  | none => .error .overflow

def MachineReal.ofText (text : String) : Except NumberError MachineReal := do
  let x ← WrittenDecimal.ofText text
  ofDouble (Decimal.ofWritten x).toDouble

inductive RealSource where
  | text (text : String)
  | decimal (x : Decimal)
  | double (x : Double)
  | integer (n : Int)
  | rational (x : Rat)

namespace RealSource

/-- The text without any `0.` in it. -/
def dropZeroPoints : List Char → List Char
  | [] => []
  | '0' :: '.' :: rest => dropZeroPoints rest
  | c :: rest => c :: dropZeroPoints rest

/-- The precision in bits that a text asks for. Its significant digits, leading zeros not counted, ask for as
many as they are worth but for no less than a machine real has; a text without any asks by its width, which is
counted in bytes and without each `0.`. -/
def textBits (text : String) : Nat :=
  let mantissa := (WrittenDecimal.splitExponent text.toList).1
  let significant := ((mantissa.filter Char.isDigit).dropWhile (· = '0')).length
  if significant = 0 then
    let width := (String.ofList (dropZeroPoints text.toList)).utf8ByteSize
    max (Precision.digitsToBits width) Precision.machineBits
  else
    Precision.digitsToBits (max significant (Precision.bitsToDigits Precision.machineBits))

/-- The precision in bits of a decimal; one of unlimited precision has as many digits as its significand. -/
def decimalBits (x : Decimal) : Nat :=
  Precision.digitsToBits (if x.precision = 0 then x.digits else x.precision)

/-- The precision in bits that is used when none is asked for. Numbers become machine reals. -/
def defaultBits : RealSource → Nat
  | .text t => textBits t
  | .decimal x => decimalBits x
  | .double _ => Precision.machineBits
  | .integer _ => Precision.machineBits
  | .rational _ => Precision.machineBits

/-- The real of a precision above that of machine reals. A double is taken for the shortest decimal that reads
back as it: 0.1 then stands for one tenth. -/
def toPrecise (bits : Nat) : RealSource → Except NumberError PrecisionReal
  | .text t => (WrittenDecimal.ofText t).map fun x => .ofWritten x bits
  | .decimal x => .ok (.ofDecimal x bits)
  | .double x => do
    let x ← MachineReal.ofDouble x
    let x ← WrittenDecimal.ofText x.plainText
    return .ofWritten x bits
  | .integer n => .ok (.ofDecimal (Integer.toDecimal n) bits)
  | .rational x => .ok (.ofDecimal (.ofRat x (Precision.bitsToDigits bits)) bits)

def toMachine : RealSource → Except NumberError MachineReal
  | .text t => MachineReal.ofText t
  | .decimal x => MachineReal.ofDouble x.toDouble
  | .double x => MachineReal.ofDouble x
  | .integer n => MachineReal.ofDouble (Double.ofInt n)
  | .rational x => MachineReal.ofDouble (Double.ofRat x)

/-- The real number of a given or inferred precision: a machine real unless the precision is above theirs. -/
def toReal (source : RealSource) (bits : Option Nat) : Except NumberError RealNumber :=
  let bits := bits.getD source.defaultBits
  if Precision.machineBits < bits then (source.toPrecise bits).map .precise else source.toMachine.map .machine

end RealSource

namespace RealNumber

def kind : RealNumber → Kind
  | integer _ => .integer
  | rational _ => .rational
  | machine _ => .machineReal
  | precise _ => .precisionReal

def toDouble : RealNumber → Double
  | integer n => Double.ofInt n
  | rational x => Double.ofRat x
  | machine x => .finite x
  | precise x => x.toDouble

def toRat : RealNumber → Rat
  | integer n => n
  | rational x => x
  | machine x => x.toRat
  | precise x => x.toRat

def isMachine : RealNumber → Bool
  | machine _ => true
  | integer _ => false
  | rational _ => false
  | precise _ => false

def toMachine (x : RealNumber) : Except NumberError MachineReal :=
  MachineReal.ofDouble x.toDouble

/-- The same number to a number of decimal digits. A real of limited precision never gains any. -/
def toPrecise (digits : Nat) : RealNumber → PrecisionReal
  | integer n => .withDigits (Integer.toDecimal n) digits
  | rational x => .ofRat x digits
  | machine x => .ofRat x.toRat digits
  | precise x => if x.digits ≤ digits then x else .withDigits x.value digits

/-- The same number to a number of decimal digits, or as a machine real if none is given. -/
def coerce (digits : Option Nat) (x : RealNumber) : Except NumberError RealNumber :=
  match digits with
  | none => x.toMachine.map machine
  | some d => .ok (precise (x.toPrecise d))

/-- The precision in bits, which exact numbers do not have. -/
def precision (x : RealNumber) : Except NumberError Nat :=
  match x with
  | machine _ => .ok Precision.machineBits
  | precise x => .ok x.bits
  | integer _ => .error (.unsupported .precision x.kind)
  | rational _ => .error (.unsupported .precision x.kind)

/-- Identity of numbers. Exact numbers are the same as their equals of the same kind, and inexact ones when
their exact values agree, whatever their precision. -/
def same : RealNumber → RealNumber → Bool
  | integer a, integer b => a == b
  | rational a, rational b => a == b
  | machine a, machine b => a.sameValue b
  | precise a, precise b => a.toRat == b.toRat
  | machine a, precise b => a.toRat == b.toRat
  | precise a, machine b => a.toRat == b.toRat
  | _, _ => false

def text : RealNumber → String
  | integer n => n.repr
  | rational x => Rational.text x
  | machine x => x.text
  | precise x => x.text

def inspect (x : RealNumber) : String :=
  let inner := match x with
    | integer n => Integer.inspect n
    | rational x => Rational.inspect x
    | machine x => x.inspect
    | precise x => x.inspect
  x.kind.name ++ "(" ++ inner ++ ")"

end RealNumber

end SymbolicKernel

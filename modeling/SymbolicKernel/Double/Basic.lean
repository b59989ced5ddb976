import SymbolicKernel.Rational
import SymbolicKernel.Numeral

/-!
Binary floating-point numbers of double width. The non-negative finite ones are numbered by *codes* in
increasing order: zero has code 0, and the code after that of the largest one stands for infinity. A code is
also the bit pattern of its number, so bits, order and neighbours are all read off it.
-/
namespace SymbolicKernel

/-- The first code that is past every finite number. -/
def infinityCode : Nat := 2047 * 2 ^ 52

/-- The whole number `m` in the value `m * 2 ^ e` of a code; the lowest codes have no implicit leading bit. -/
def codeMantissa (code : Nat) : Nat :=
  if code < 2 ^ 52 then code else 2 ^ 52 + code % 2 ^ 52

/-- The exponent `e` in the value `m * 2 ^ e` of a code. -/
def codeExponent (code : Nat) : Int :=
  if code < 2 ^ 52 then -1074 else (code / 2 ^ 52 : Nat) - 1075

/-- A finite double: a sign, which zero has too, and the code of its magnitude. -/
structure MachineReal where
  negative : Bool
  code : Nat
  code_lt : code < infinityCode
  deriving DecidableEq

/-- Any double. The numbers of the kernel are finite ones; the others arise on the way to them. -/
inductive Double where
  | finite (x : MachineReal)
  | infinite (negative : Bool)
  | nan
  deriving DecidableEq

namespace MachineReal

def zero : MachineReal := ⟨false, 0, by decide⟩

def neg (x : MachineReal) : MachineReal := { x with negative := !x.negative }

/-- The exact value. The two zeros, and no other two doubles, have the same one. -/
def toRat (x : MachineReal) : Rat :=
  Rational.scaled (Numeral.withSign x.negative (codeMantissa x.code)) 2 (codeExponent x.code)

/-- The place of a double in the order of all finite doubles, the two zeros sharing one place. -/
def rank (x : MachineReal) : Int :=
  Numeral.withSign x.negative x.code

/-- Equality as numbers: like equality of values, it identifies the two zeros. -/
def sameValue (x y : MachineReal) : Bool :=
  x.rank == y.rank

def compare (x y : MachineReal) : Ordering :=
  Ord.compare x.rank y.rank

/-- The 64 bits as a number: the sign in the highest one, the code below it. -/
def toBits (x : MachineReal) : Nat :=
  if x.negative then 2 ^ 63 + x.code else x.code

end MachineReal

namespace Double

/-- The double of a sign and a code; every code from that of infinity on gives an infinity. -/
def ofCode (negative : Bool) (code : Nat) : Double :=
  if h : code < infinityCode then finite ⟨negative, code, h⟩ else infinite negative

/-- The double with the given 64 bits; the patterns past infinity are not numbers. -/
def ofBits (bits : Nat) : Double :=
  let negative := 2 ^ 63 ≤ bits % 2 ^ 64
  let code := bits % 2 ^ 63
  if code ≤ infinityCode then ofCode negative code else nan

/-- The 64 bits of a double; what is not a number has one pattern here. -/
def toBits : Double → Nat
  | finite x => x.toBits
  | infinite negative => if negative then 2 ^ 63 + infinityCode else infinityCode
  | nan => infinityCode + 2 ^ 51

def neg : Double → Double
  | finite x => finite x.neg
  | infinite negative => infinite !negative
  | nan => nan

def abs : Double → Double
  | finite x => finite { x with negative := false }
  | infinite _ => infinite false
  | nan => nan

def finite? : Double → Option MachineReal
  | finite x => some x
  | infinite _ => none
  | nan => none

def isZero : Double → Bool
  | finite x => x.code == 0
  | infinite _ => false
  | nan => false

end Double

end SymbolicKernel

import SymbolicKernel.Double.Nearest

/-!
Precision counted in bits and in decimal digits. The two are converted by multiplying or dividing by the
double nearest to the binary logarithm of ten, each operation rounded to a double, and the result rounded to a
whole number, half away from zero. A count is never below one nor above the largest number of 32 bits.
-/
namespace SymbolicKernel.Precision

/-- The precision of a machine real in bits. Reals of up to this precision are machine reals. -/
def machineBits : Nat := 53

/-- The distance from one to the next double. -/
def machineEpsilon : MachineReal := ⟨false, 0x3cb0000000000000, by decide⟩

/-- The double nearest to the binary logarithm of ten. -/
def bitsPerDigit : MachineReal := ⟨false, 0x400a934f0979a371, by decide⟩

def maxCount : Nat := 2 ^ 32 - 1

/-- The nearest number that may count bits or digits. -/
def clampCount (n : Int) : Nat :=
  (max 1 (min n maxCount)).toNat

/-- The value of the double nearest to `x`; numbers out of the range of doubles are left as they are. -/
def rounded (x : Rat) : Rat :=
  match (Double.ofRat x).finite? with
  | some y => y.toRat
  | none => x

def bitsToDigits (bits : Nat) : Nat :=
  clampCount (Rational.round .awayFromZero (rounded (rounded (bits / bitsPerDigit.toRat) - 1)))

def digitsToBits (digits : Nat) : Nat :=
  clampCount (Rational.round .awayFromZero (rounded ((digits + 1) * bitsPerDigit.toRat)))

/-- Number of decimal digits that are enough to tell any two binary numbers of the given precision apart. -/
def reconstructDigits (bits : Nat) : Nat :=
  clampCount ((rounded (bits / bitsPerDigit.toRat)).ceil + 1)

/-- The number of digits that a real number asks for: it is cut to a whole number, and what is no number asks
for one digit. -/
def digitsOfDouble : Double → Nat
  | .finite x => clampCount (x.toRat.num.tdiv x.toRat.den)
  | .infinite negative => if negative then 1 else maxCount
  | .nan => 1

end SymbolicKernel.Precision

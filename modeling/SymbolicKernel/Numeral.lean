/-!
Whole numbers written with digits: the value of a digit and of a row of digits, the number of digits of a
number, its trailing zeros, and the order of magnitude of a quotient; and what 64 bits keep of a number.
Main statement: `length_le_iff`, a number has at most `k` digits exactly when it is below `b ^ k`.
-/
namespace SymbolicKernel.Numeral

-- Powers of whole numbers are those of the core library also where powers in a monoid are in scope.
attribute [instance (1100), default_instance 10001] instPowNat

/-- The value of an ASCII digit or letter, letters of either case counting on from ten. -/
def digitValue (c : Char) : Option Nat :=
  if '0' ≤ c ∧ c ≤ '9' then some (c.toNat - '0'.toNat)
  else if 'a' ≤ c ∧ c ≤ 'z' then some (c.toNat - 'a'.toNat + 10)
  else if 'A' ≤ c ∧ c ≤ 'Z' then some (c.toNat - 'A'.toNat + 10)
  else none

def isDigitOf (b : Nat) (c : Char) : Bool :=
  (digitValue c).any (· < b)

/-- The number that a row of digits denotes in base `b`, most significant digit first. -/
def valueOf (b : Nat) (digits : List Char) : Nat :=
  digits.foldl (fun n c => n * b + (digitValue c).getD 0) 0

/-- The decimal digits of a number; zero is written `0`. -/
def decimalDigits (n : Nat) : List Char :=
  Nat.toDigits 10 n

/-- The sign at the front of a text, if there is one, and what follows it. -/
def splitSign : List Char → Bool × List Char
  | '-' :: rest => (true, rest)
  | '+' :: rest => (false, rest)
  | text => (false, text)

def withSign (negative : Bool) (n : Nat) : Int :=
  if negative then -(n : Int) else n

/-- A decimal whole number with an optional sign and at least one digit. -/
def readInt (text : List Char) : Option Int :=
  let (negative, digits) := splitSign text
  if digits ≠ [] ∧ digits.all Char.isDigit then some (withSign negative (valueOf 10 digits))
  else none

/-- A whole number in base `b` with an optional sign. Underscores among the digits are passed over, and one
underscore alone is read as zero, but the sign must be followed by something. -/
def readIntInBase (b : Nat) (text : List Char) : Option Int :=
  let (negative, body) := splitSign text
  let digits := body.filter (· ≠ '_')
  if 2 ≤ b ∧ b ≤ 36 ∧ body ≠ [] ∧ digits.all (isDigitOf b) then
    some (withSign negative (valueOf b digits))
  else none

/-- Number of digits of `n` in base `b` when `n` is below `b ^ 2 ^ i`, counted block by block, each block
half as long as the one before. -/
def blockLength (b : Nat) : Nat → Nat → Nat
  | 0, n => if n = 0 then 0 else 1
  | i + 1, n =>
    if n < b ^ 2 ^ i then blockLength b i n
    else 2 ^ i + blockLength b i (n / b ^ 2 ^ i)

/-- Number of digits of `n` in base `b`; zero has none. -/
def length (b n : Nat) : Nat :=
  blockLength b (n.log2.log2 + 1) n

/-- Number of digits in the written decimal form of `n`; zero is written with one. -/
def writtenLength (n : Nat) : Nat :=
  max 1 (length 10 n)

/-- `n` without its trailing decimal zeros, and their number, when there are fewer than `2 ^ i`. -/
def stripBlocks : Nat → Nat → Nat × Nat
  | 0, n => (n, 0)
  | i + 1, n =>
    if n % 10 ^ 2 ^ i = 0 then
      let rest := stripBlocks i (n / 10 ^ 2 ^ i)
      (rest.1, rest.2 + 2 ^ i)
    else stripBlocks i n

/-- `n` without its trailing decimal zeros, and their number; zero is taken to have none. -/
def stripZeros (n : Nat) : Nat × Nat :=
  if n = 0 then (0, 0) else stripBlocks ((length 10 n).log2 + 1) n

/-- The order of magnitude of `p / q` in base `b`: the largest `e` with `b ^ e ≤ p / q`. -/
def order (b p q : Nat) : Int :=
  let estimate : Int := length b p - length b q
  if q * b ^ estimate.toNat ≤ p * b ^ (-estimate).toNat then estimate else estimate - 1

/-- What 64 bits keep of a whole number: the number itself if it is in their range, and else the one that it wraps
around to. -/
def wrap (n : Int) : Int :=
  n.bmod (2 ^ 64)

theorem blockLength_le_iff {b : Nat} (base : 2 ≤ b) {i n k : Nat} (small : n < b ^ 2 ^ i) :
    blockLength b i n ≤ k ↔ n < b ^ k := by
  induction i generalizing n k with
  | zero =>
    by_cases zero : n = 0
    · simp [blockLength, zero, Nat.pow_pos (show 0 < b by omega)]
    · cases k with
      | zero => simp [blockLength, zero]
      | succ k =>
        have low : b ^ 1 ≤ b ^ (k + 1) := Nat.pow_le_pow_right (by omega) (by omega)
        simp only [Nat.pow_zero] at small
        simp only [blockLength, zero, if_false]
        omega
  | succ i ih =>
    rw [blockLength]
    split
    · rename_i below
      exact ih below
    · rename_i above
      have double : b ^ 2 ^ (i + 1) = b ^ 2 ^ i * b ^ 2 ^ i := by
        rw [← Nat.pow_add]
        congr 1
        omega
      have pos : 0 < b ^ 2 ^ i := Nat.pow_pos (by omega)
      by_cases short : 2 ^ i ≤ k
      · have split : b ^ k = b ^ (k - 2 ^ i) * b ^ 2 ^ i := by
          rw [← Nat.pow_add, Nat.sub_add_cancel short]
        have upper := ih (n := n / b ^ 2 ^ i) (k := k - 2 ^ i)
          ((Nat.div_lt_iff_lt_mul pos).mpr (by rw [← double]; exact small))
        rw [Nat.div_lt_iff_lt_mul pos, ← split] at upper
        rw [← upper]
        omega
      · have low : b ^ k ≤ b ^ 2 ^ i := Nat.pow_le_pow_right (by omega) (by omega)
        constructor <;> intro <;> omega

theorem lt_pow_of_log2 {b : Nat} (base : 2 ≤ b) (n : Nat) : n < b ^ 2 ^ (n.log2.log2 + 1) := by
  have bits : n.log2 + 1 ≤ 2 ^ (n.log2.log2 + 1) := Nat.lt_log2_self
  calc n < 2 ^ (n.log2 + 1) := Nat.lt_log2_self
    _ ≤ 2 ^ 2 ^ (n.log2.log2 + 1) := Nat.pow_le_pow_right (by omega) bits
    _ ≤ b ^ 2 ^ (n.log2.log2 + 1) := Nat.pow_le_pow_left base _

/-- A number has at most `k` digits exactly when it is below `b ^ k`. -/
theorem length_le_iff {b : Nat} (base : 2 ≤ b) {n k : Nat} : length b n ≤ k ↔ n < b ^ k :=
  blockLength_le_iff base (lt_pow_of_log2 base n)

theorem lt_length_iff {b : Nat} (base : 2 ≤ b) {n k : Nat} : k < length b n ↔ b ^ k ≤ n := by
  rw [← Nat.not_le, length_le_iff base, Nat.not_lt]

theorem stripBlocks_spec {i n : Nat} (few : n % 10 ^ 2 ^ i ≠ 0) :
    (stripBlocks i n).1 * 10 ^ (stripBlocks i n).2 = n ∧ (stripBlocks i n).1 % 10 ≠ 0 := by
  induction i generalizing n with
  | zero => simpa [stripBlocks] using few
  | succ i ih =>
    rw [stripBlocks]
    split
    · rename_i even
      have whole : n / 10 ^ 2 ^ i * 10 ^ 2 ^ i = n :=
        Nat.div_mul_cancel (Nat.dvd_of_mod_eq_zero even)
      have double : 10 ^ 2 ^ (i + 1) = 10 ^ 2 ^ i * 10 ^ 2 ^ i := by
        rw [← Nat.pow_add]
        congr 1
        omega
      have rest : n / 10 ^ 2 ^ i % 10 ^ 2 ^ i ≠ 0 := by
        intro again
        apply few
        rw [double, ← whole]
        exact Nat.mod_eq_zero_of_dvd (Nat.mul_dvd_mul (Nat.dvd_of_mod_eq_zero again) (Nat.dvd_refl _))
      obtain ⟨value, last⟩ := ih rest
      refine ⟨?_, last⟩
      rw [Nat.pow_add, ← Nat.mul_assoc, value, whole]
    · rename_i odd
      exact ih odd

/-- Stripping keeps the value and leaves a last digit that is not zero. -/
theorem stripZeros_spec {n : Nat} (pos : n ≠ 0) :
    (stripZeros n).1 * 10 ^ (stripZeros n).2 = n ∧ (stripZeros n).1 % 10 ≠ 0 := by
  rw [stripZeros, if_neg pos]
  apply stripBlocks_spec
  have bound : length 10 n ≤ 2 ^ ((length 10 n).log2 + 1) := Nat.le_of_lt Nat.lt_log2_self
  rw [Nat.mod_eq_of_lt ((length_le_iff (by decide)).mp bound)]
  exact pos

@[simp] theorem stripZeros_zero : stripZeros 0 = (0, 0) := rfl

@[simp] theorem wrap_zero : wrap 0 = 0 := rfl

theorem wrap_eq_self_iff {n : Int} : wrap n = n ↔ -2 ^ 63 ≤ n ∧ n < 2 ^ 63 := by
  constructor
  · intro same
    have least := Int.le_bmod (x := n) (m := 2 ^ 64) (by decide)
    have greatest := Int.bmod_lt (x := n) (m := 2 ^ 64) (by decide)
    rw [wrap] at same
    omega
  · rintro ⟨low, high⟩
    exact Int.bmod_eq_of_le (by omega) (by omega)

end SymbolicKernel.Numeral

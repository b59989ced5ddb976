import SymbolicKernel.Proofs.Precision.Order

/-!
How many digits some bits are worth, and how many bits are asked for by digits. The operations on doubles are off by so
little that a count of digits comes back from its bits. Main statement: `Precision.digits_survive_bits`.
-/
namespace SymbolicKernel

namespace Precision

/-- Operations on doubles keep the first 53 binary places. -/
theorem abs_rounded_sub_le (x : ℚ) : |rounded x - x| ≤ 2 ^ (-53 : ℤ) * max |x| leastNormal := by
  have bound : 0 ≤ 2 ^ (-53 : ℤ) * max |x| leastNormal := by
    have pos : 0 < max |x| leastNormal := lt_max_of_lt_right leastNormal_pos
    positivity
  cases nearest : Double.ofRat x with
  | finite y =>
    have value : rounded x = y.toRat := by simp only [rounded, nearest, Double.finite?]
    rw [value]
    exact Double.abs_ofRat_sub_le_mul nearest
  | infinite negative =>
    have value : rounded x = x := by simp only [rounded, nearest, Double.finite?]
    rw [value, sub_self, abs_zero]
    exact bound
  | nan =>
    have value : rounded x = x := by simp only [rounded, nearest, Double.finite?]
    rw [value, sub_self, abs_zero]
    exact bound

theorem abs_rounded_sub_lt {x : ℚ} (small : |x| ≤ 2 ^ 33) : |rounded x - x| ≤ 1 / 2 ^ 20 := by
  have near := abs_rounded_sub_le x
  have bounded : max |x| leastNormal ≤ 2 ^ 33 := by
    exact max_le small (leastNormal_le_one.trans (by norm_num))
  calc |rounded x - x| ≤ 2 ^ (-53 : ℤ) * max |x| leastNormal := near
    _ ≤ 2 ^ (-53 : ℤ) * 2 ^ 33 := by gcongr
    _ = 1 / 2 ^ 20 := by norm_num

/-- The most digits that a number of bits can be worth. -/
def maxDigits : ℕ := 1292913985

theorem reconstructDigits_machineBits : reconstructDigits machineBits = 17 := by decide +kernel

theorem bitsToDigits_maxCount : bitsToDigits maxCount = maxDigits := by decide +kernel

theorem clampCount_le (n : ℤ) : clampCount n ≤ maxCount := by
  have some : 1 ≤ maxCount := by decide
  rw [clampCount]
  omega

theorem one_le_clampCount (n : ℤ) : 1 ≤ clampCount n := by
  rw [clampCount]
  omega

theorem bitsToDigits_pos (bits : ℕ) : 0 < bitsToDigits bits := one_le_clampCount _

theorem digitsOfDouble_pos (x : Double) : 0 < digitsOfDouble x := by
  cases x with
  | finite x => exact one_le_clampCount _
  | infinite negative => cases negative <;> decide
  | nan => decide

theorem clampCount_natCast {n : ℕ} (le : n ≤ maxCount) : clampCount n = max 1 n := by
  rw [clampCount]
  omega

theorem digitsOfDouble_natCast {y : MachineReal} {n : ℕ} (value : y.toRat = n) (pos : 0 < n) (counted : n ≤ maxCount) :
    digitsOfDouble (.finite y) = n := by
  rw [digitsOfDouble, value, Rat.num_natCast, Rat.den_natCast, Nat.cast_one, Int.tdiv_one, clampCount_natCast counted]
  omega

theorem clampCount_of_le {n : ℤ} (pos : 1 ≤ n) (le : n ≤ maxCount) : (clampCount n : ℤ) = n := by
  rw [clampCount]
  omega

/-- Counting bits in digits takes two operations on doubles, which are hardly off for counts of 32 bits. -/
theorem abs_rounded_digits_sub_le {bits : ℕ} (counted : bits ≤ maxCount) :
    |rounded (rounded (bits / bitsPerDigit.toRat) - 1) - (bits / bitsPerDigit.toRat - 1)| ≤ 1 / 2 ^ 19 := by
  have counted : (bits : ℚ) ≤ 4294967295 := by exact_mod_cast counted
  have none : (0 : ℚ) ≤ bits := Nat.cast_nonneg _
  generalize quotient : (bits : ℚ) / bitsPerDigit.toRat = q
  have worth : (bits : ℚ) = q * bitsPerDigit.toRat := by
    rw [← quotient, bitsPerDigit_eq]
    field_simp
  rw [worth, bitsPerDigit_eq] at counted none
  have first : |rounded q - q| ≤ 1 / 2 ^ 20 := abs_rounded_sub_lt (abs_le.mpr ⟨by linarith, by linarith⟩)
  rw [abs_le] at first
  have second : |rounded (rounded q - 1) - (rounded q - 1)| ≤ 1 / 2 ^ 20 :=
    abs_rounded_sub_lt (abs_le.mpr ⟨by linarith, by linarith⟩)
  rw [abs_le] at second ⊢
  constructor <;> linarith

/-- A number of bits within one of the exact worth of some digits is worth these digits again. -/
theorem bitsToDigits_of_abs_sub_le {bits digits : ℕ} (few : bits ≤ maxCount) (short : digits ≤ maxCount)
    (near : |(bits : ℚ) - (digits + 1) * bitsPerDigit.toRat| ≤ 1) : bitsToDigits bits = max 1 digits := by
  have steps := abs_rounded_digits_sub_le few
  rw [bitsToDigits]
  generalize quotient : (bits : ℚ) / bitsPerDigit.toRat = q at steps ⊢
  have worth : (bits : ℚ) = q * bitsPerDigit.toRat := by
    rw [← quotient, bitsPerDigit_eq]
    field_simp
  rw [abs_le, worth, bitsPerDigit_eq] at near
  rw [abs_le] at steps
  have close : |rounded (rounded q - 1) - (digits : ℤ)| < 1 / 2 := by
    rw [abs_lt, Int.cast_natCast]
    constructor <;> linarith
  rw [Rational.round_eq_of_abs_sub_lt close, clampCount_natCast short]

/-- As many bits as can be counted are worth no more digits than the most of them are. -/
theorem bitsToDigits_le {bits : ℕ} (counted : bits ≤ maxCount) : bitsToDigits bits ≤ maxDigits :=
  (bitsToDigits_mono counted).trans_eq bitsToDigits_maxCount

theorem abs_digitsToBits_sub_le {digits : ℕ} (few : digits ≤ maxDigits) :
    |(digitsToBits digits : ℚ) - (digits + 1) * bitsPerDigit.toRat| ≤ 1 := by
  have few : (digits : ℚ) ≤ 1292913985 := by exact_mod_cast few
  have none : (0 : ℚ) ≤ digits := Nat.cast_nonneg _
  rw [digitsToBits]
  generalize worth : ((digits : ℚ) + 1) * bitsPerDigit.toRat = t
  rw [bitsPerDigit_eq] at worth
  have first : |rounded t - t| ≤ 1 / 2 ^ 20 := abs_rounded_sub_lt (abs_le.mpr ⟨by linarith, by linarith⟩)
  have second := Rational.abs_round_sub_le .awayFromZero (rounded t)
  rw [abs_le] at first second
  generalize Rational.round .awayFromZero (rounded t) = n at second ⊢
  have pos : 1 ≤ n := by
    have large : (0 : ℚ) < n := by linarith
    exact_mod_cast large
  have le : n ≤ maxCount := by
    have small : (n : ℚ) < 2 ^ 32 := by linarith
    exact Int.lt_add_one_iff.mp (by exact_mod_cast small)
  have kept : (clampCount n : ℚ) = n := by exact_mod_cast clampCount_of_le pos le
  rw [kept, abs_le]
  constructor <;> linarith

theorem digitsToBits_of_lt {digits : ℕ} (many : maxDigits < digits) : digitsToBits digits = maxCount := by
  have first : digitsToBits (maxDigits + 1) = maxCount := by decide +kernel
  have more := digitsToBits_mono (Nat.succ_le_of_lt many)
  rw [Nat.succ_eq_add_one, first] at more
  exact le_antisymm (clampCount_le _) more

theorem digitsToBits_fifteen : digitsToBits 15 = machineBits := by decide +kernel

/-- More digits than fifteen ask for more than a machine real, and no fewer do. -/
theorem machineBits_lt_digitsToBits_iff {digits : ℕ} : machineBits < digitsToBits digits ↔ 15 < digits := by
  have next : machineBits < digitsToBits 16 := by decide +kernel
  constructor
  · intro above
    by_contra few
    have bound := digitsToBits_mono (not_lt.mp few)
    rw [digitsToBits_fifteen] at bound
    exact absurd above (not_lt.mpr bound)
  · exact fun many => next.trans_le (digitsToBits_mono (Nat.succ_le_of_lt many))

/-- Digits survive being counted in bits, up to the most that can be so counted. -/
theorem bitsToDigits_digitsToBits (digits : ℕ) :
    bitsToDigits (digitsToBits digits) = max 1 (min digits maxDigits) := by
  by_cases few : digits ≤ maxDigits
  · have bits : digitsToBits digits ≤ maxCount := clampCount_le _
    have short : digits ≤ maxCount := few.trans (by decide)
    rw [bitsToDigits_of_abs_sub_le bits short (abs_digitsToBits_sub_le few), min_eq_left few]
  · rw [digitsToBits_of_lt (by omega), bitsToDigits_maxCount, min_eq_right (by omega)]
    decide

/-- Exactly the counts of digits that bits can be worth come back from their bits. -/
theorem bitsToDigits_digitsToBits_eq_iff (digits : ℕ) :
    bitsToDigits (digitsToBits digits) = digits ↔ 1 ≤ digits ∧ digits ≤ maxDigits := by
  have some : 1 ≤ maxDigits := by decide
  rw [bitsToDigits_digitsToBits]
  omega

/-- Fewer digits than some bits are worth ask for no more bits than these: more bits would be worth no fewer digits. -/
theorem digitsToBits_le_of_lt {bits digits : ℕ} (counted : bits ≤ maxCount) (pos : 0 < digits)
    (fewer : digits < bitsToDigits bits) : digitsToBits digits ≤ bits := by
  have few : digits ≤ maxDigits := fewer.le.trans (bitsToDigits_le counted)
  have back := (bitsToDigits_digitsToBits_eq_iff digits).mpr ⟨pos, few⟩
  by_contra more
  have worth := bitsToDigits_mono (not_le.mp more).le
  omega

/-- Counts of digits come back from the bits that they are turned into, up to `10 ^ 9` and whenever they are what some bits
are worth. Both conversions keep the order of counts. The counts of 32 bits and the numbers after them are doubles, so that
reading a count as a double and adding one round nothing. -/
theorem digits_survive_bits :
    (∀ digits, bitsToDigits (digitsToBits digits) = digits ↔ 1 ≤ digits ∧ digits ≤ maxDigits) ∧ 10 ^ 9 ≤ maxDigits ∧
      (∀ bits ≤ maxCount, bitsToDigits (digitsToBits (bitsToDigits bits)) = bitsToDigits bits) ∧
      Monotone bitsToDigits ∧ Monotone digitsToBits ∧ ∀ count ≤ maxCount + 1, rounded count = count := by
  refine ⟨bitsToDigits_digitsToBits_eq_iff, by decide, ?_, bitsToDigits_mono, digitsToBits_mono, ?_⟩
  · intro bits counted
    exact (bitsToDigits_digitsToBits_eq_iff _).mpr ⟨bitsToDigits_pos bits, bitsToDigits_le counted⟩
  · intro count counted
    exact rounded_natCast (counted.trans_lt (by decide))

/-- No bits at all, which are worth one digit nevertheless, and the most bits that can be counted. -/
theorem digits_survive_bits_at_ends :
    0 ≤ maxCount ∧ bitsToDigits 0 = 1 ∧ bitsToDigits (digitsToBits 1) = 1 ∧
      maxCount ≤ maxCount ∧ bitsToDigits maxCount = maxDigits ∧ bitsToDigits (digitsToBits maxDigits) = maxDigits ∧
      bitsToDigits (digitsToBits (10 ^ 9)) = 10 ^ 9 ∧
      maxCount + 1 ≤ maxCount + 1 ∧ rounded (maxCount + 1 : ℕ) = (maxCount + 1 : ℕ) := by
  obtain ⟨back, wide, settled, _, _, exact⟩ := digits_survive_bits
  have none : bitsToDigits 0 = 1 := by decide +kernel
  have first := settled 0 (Nat.zero_le _)
  have last := settled maxCount le_rfl
  rw [none] at first
  rw [bitsToDigits_maxCount] at last
  exact ⟨Nat.zero_le _, none, first, le_rfl, bitsToDigits_maxCount, last, (back _).mpr ⟨by decide, wide⟩, le_rfl,
    exact _ le_rfl⟩

end Precision

end SymbolicKernel

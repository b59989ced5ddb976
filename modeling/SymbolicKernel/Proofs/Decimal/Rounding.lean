import SymbolicKernel.Proofs.Rational
import SymbolicKernel.Proofs.Rounding
import SymbolicKernel.Decimal.Basic

namespace SymbolicKernel

theorem Numeral.withSign_eq_sign_mul {s : ℤ} (nonzero : s ≠ 0) (n : ℕ) :
    (Numeral.withSign (s < 0) n : ℚ) = SignType.sign (s : ℚ) * n := by
  rcases lt_or_gt_of_ne nonzero with neg | pos
  · have sign : SignType.sign (s : ℚ) = -1 := sign_neg (by exact_mod_cast neg)
    simp [Numeral.withSign, neg, sign]
  · have sign : SignType.sign (s : ℚ) = 1 := sign_pos (by exact_mod_cast pos)
    simp [Numeral.withSign, pos.le, sign]

namespace Decimal

theorem toRat_eq (x : Decimal) : x.toRat = x.significand * 10 ^ x.exponent :=
  Rational.scaled_eq _ (by decide) _

theorem significand_eq_zero_iff {x : Decimal} : x.significand = 0 ↔ x.toRat = 0 := by
  have scale : (10 : ℚ) ^ x.exponent ≠ 0 := zpow_ne_zero _ (by norm_num)
  rw [toRat_eq, mul_eq_zero, or_iff_left scale, Int.cast_eq_zero]

/-- A significand without trailing zeros leaves no choice of the exponent. -/
theorem exponent_le_of_toRat_eq {x y : Decimal} (nonzero : x.significand ≠ 0) (value : x.toRat = y.toRat) :
    y.exponent ≤ x.exponent := by
  by_contra less
  obtain ⟨zeros, apart⟩ : ∃ zeros : ℕ, y.exponent = x.exponent + (zeros + 1 : ℕ) :=
    ⟨(y.exponent - x.exponent - 1).toNat, by omega⟩
  have scale : (10 : ℚ) ^ x.exponent ≠ 0 := zpow_ne_zero _ (by norm_num)
  rw [toRat_eq, toRat_eq, apart, zpow_add₀ (by norm_num), zpow_natCast, mul_comm ((10 : ℚ) ^ x.exponent), ← mul_assoc,
    mul_left_inj' scale] at value
  have whole : x.significand = y.significand * 10 ^ (zeros + 1) := by exact_mod_cast value
  have last := x.normal
  rw [Normal, if_neg nonzero, whole, pow_succ, ← mul_assoc, Int.mul_emod_left] at last
  exact last rfl

/-- Decimals of one value and one precision are the same decimal. -/
theorem eq_of_toRat_eq {x y : Decimal} (value : x.toRat = y.toRat) (precision : x.precision = y.precision) : x = y := by
  have zero : x.significand = 0 ↔ y.significand = 0 := by
    rw [significand_eq_zero_iff, significand_eq_zero_iff, value]
  have exponent : x.exponent = y.exponent := by
    by_cases nonzero : x.significand = 0
    · have left := x.normal
      have right := y.normal
      rw [Normal, if_pos nonzero] at left
      rw [Normal, if_pos (zero.mp nonzero)] at right
      rw [left, right]
    · exact le_antisymm (exponent_le_of_toRat_eq (zero.not.mp nonzero) value.symm) (exponent_le_of_toRat_eq nonzero value)
  have scale : (10 : ℚ) ^ y.exponent ≠ 0 := zpow_ne_zero _ (by norm_num)
  rw [toRat_eq, toRat_eq, exponent, mul_left_inj' scale, Int.cast_inj] at value
  cases x
  cases y
  simp only at value exponent precision
  simp only [value, exponent, precision]

/-- Taking trailing zeros off a significand changes the form of a number only. -/
theorem toRat_ofScaled (significand exponent : ℤ) (precision : ℕ) :
    (ofScaled significand exponent precision).toRat = significand * 10 ^ exponent := by
  by_cases zero : significand = 0
  · simp [toRat_eq, ofScaled, normalize, zero]
  have whole := (Numeral.stripZeros_spec (n := significand.natAbs) (by omega)).1
  simp only [toRat_eq, ofScaled, normalize, zero, if_false]
  generalize Numeral.stripZeros significand.natAbs = stripped at whole ⊢
  have value := Numeral.withSign_mul (significand < 0) stripped.1 (10 ^ stripped.2)
  rw [whole, Numeral.withSign_natAbs] at value
  conv_rhs => rw [value]
  push_cast
  rw [zpow_add₀ (by norm_num), zpow_natCast]
  ring

theorem abs_toRat (x : Decimal) : |x.toRat| = (x.significand.natAbs : ℚ) * 10 ^ x.exponent := by
  have scale : (0 : ℚ) < 10 ^ x.exponent := zpow_pos (by norm_num) _
  rw [toRat_eq, abs_mul, abs_of_pos scale, Nat.cast_natAbs, Int.cast_abs]

theorem log_toRat {x : Decimal} (nonzero : x.significand ≠ 0) :
    Int.log 10 |x.toRat| = x.digits - 1 + x.exponent := by
  have some : 0 < x.significand.natAbs := Int.natAbs_pos.mpr nonzero
  rw [abs_toRat, log_ten_mul_zpow (by exact_mod_cast some), Numeral.log_natCast (by decide) some.ne', digits]

theorem lastPlace_toRat {x : Decimal} (nonzero : x.significand ≠ 0) (precision : ℕ) :
    lastPlace precision x.toRat = 10 ^ (x.exponent + (x.digits - precision)) := by
  rw [lastPlace, log_toRat nonzero]
  congr 1
  ring

/-- A decimal is left as it is if it has no more digits than asked for: rounding would not change it. -/
theorem roundDigits_of_digits_le {x : Decimal} {precision : ℕ} (fits : x.digits ≤ precision) :
    roundDigits precision x.toRat = x.toRat := by
  by_cases zero : x.significand = 0
  · simp [toRat_eq, roundDigits, zero]
  have multiple : |x.toRat| =
      (x.significand.natAbs * 10 ^ (precision - x.digits) : ℕ) * lastPlace precision x.toRat := by
    have shift : x.exponent = (precision - x.digits : ℕ) + (x.exponent + (x.digits - precision)) := by omega
    conv_lhs => rw [abs_toRat, shift, zpow_add₀ (by norm_num), zpow_natCast]
    rw [lastPlace_toRat zero, Nat.cast_mul, Nat.cast_pow]
    ring
  exact roundTo_of_abs_eq (lastPlace_pos _ _) (by exact_mod_cast multiple)

theorem toRat_withPrecision {x : Decimal} {precision : ℕ} (pos : 0 < precision)
    (reached : precision < x.precision ∨ x.digits ≤ precision) :
    (x.withPrecision precision).toRat = roundDigits precision x.toRat := by
  by_cases fits : x.digits ≤ precision
  · have kept : ¬ (0 < precision ∧ precision < x.precision ∧ precision < x.digits) := by omega
    rw [roundDigits_of_digits_le fits, withPrecision, if_neg kept]
    rfl
  have cut : 0 < precision ∧ precision < x.precision ∧ precision < x.digits := by omega
  have nonzero : x.significand ≠ 0 := by
    intro zero
    have none : x.digits = 0 := by rw [digits, zero]; rfl
    omega
  have scale : (0 : ℚ) < 10 ^ x.exponent := zpow_pos (by norm_num) _
  have excess : ((x.digits - precision : ℕ) : ℤ) = x.digits - precision := by omega
  have sign : SignType.sign x.toRat = SignType.sign (x.significand : ℚ) := by
    rw [toRat_eq, sign_mul, sign_pos scale, mul_one]
  have unit : lastPlace precision x.toRat = 10 ^ x.exponent * 10 ^ (x.digits - precision) := by
    rw [lastPlace_toRat nonzero, zpow_add₀ (by norm_num), ← excess, zpow_natCast]
  have quotient : |x.toRat| / lastPlace precision x.toRat =
      (x.significand.natAbs : ℚ) / (10 ^ (x.digits - precision) : ℕ) := by
    rw [unit, abs_toRat]
    push_cast
    field_simp
  rw [withPrecision, if_pos cut]
  simp only
  rw [toRat_ofScaled, Numeral.withSign_eq_sign_mul nonzero, roundDigits, roundTo, sign, quotient, unit,
    ← roundDiv_awayFromZero _ (by positivity), excess, zpow_add₀ (by norm_num), ← excess, zpow_natCast]
  push_cast
  ring

theorem toRat_withPrecision_of_le {x : Decimal} {precision : ℕ} (le : x.precision ≤ precision) :
    (x.withPrecision precision).toRat = x.toRat := by
  have kept : ¬ (0 < precision ∧ precision < x.precision ∧ precision < x.digits) := by omega
  rw [withPrecision, if_neg kept]
  rfl

theorem withPrecision_precision (x : Decimal) (precision : ℕ) : (x.withPrecision precision).precision = precision := by
  rw [withPrecision]
  split <;> rfl

end Decimal

end SymbolicKernel

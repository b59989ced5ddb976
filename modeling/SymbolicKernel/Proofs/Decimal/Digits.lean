import SymbolicKernel.Proofs.Decimal.Quotient

/-!
The digits of decimals. A decimal has no more digits than asked for exactly when rounding would leave its value alone,
and `withPrecision` brings it there exactly when the decimal is `Roundable`.
-/
namespace SymbolicKernel

theorem eq_mul_of_roundTo_eq {unit x : ℚ} (pos : 0 < unit) (kept : roundTo unit x = x) :
    |x| = round (|x| / unit) * unit := by
  rcases eq_or_ne x 0 with zero | nonzero
  · simp [zero]
  have nonneg : (0 : ℚ) ≤ round (|x| / unit) := by exact_mod_cast round_nonneg (by positivity)
  have magnitude : |roundTo unit x| = round (|x| / unit) * unit := by
    rw [← roundRaised_zero_slack, abs_roundRaised pos le_rfl nonzero, add_zero]
  rwa [kept] at magnitude

/-- A power of ten is stripped to one digit, so the bound may be reached. -/
theorem Numeral.stripZeros_lt {n k : ℕ} (nonzero : n ≠ 0) (pos : 0 < k) (bound : n ≤ 10 ^ k) :
    (Numeral.stripZeros n).1 < 10 ^ k := by
  obtain ⟨whole, last⟩ := Numeral.stripZeros_spec nonzero
  generalize Numeral.stripZeros n = stripped at whole last ⊢
  cases zeros : stripped.2 with
  | zero =>
    have ten : 10 ^ k % 10 = 0 := Nat.mod_eq_zero_of_dvd (dvd_pow_self 10 pos.ne')
    rw [zeros, pow_zero, mul_one] at whole
    refine lt_of_le_of_ne (whole.trans_le bound) ?_
    intro same
    rw [same] at last
    exact last ten
  | succ more =>
    have positive : 0 < stripped.1 := by omega
    have power : 1 < 10 ^ (more + 1) := Nat.one_lt_pow (by omega) (by decide)
    calc stripped.1 < stripped.1 * 10 ^ (more + 1) := lt_mul_of_one_lt_right positive power
      _ = n := by rw [← zeros, whole]
      _ ≤ 10 ^ k := bound

namespace Decimal

variable {x : Decimal} {precision : ℕ}

theorem digits_le_iff : x.digits ≤ precision ↔ x.significand.natAbs < 10 ^ precision :=
  Numeral.length_le_iff (by decide)

theorem digits_ofScaled_le {significand exponent : ℤ} {limit : ℕ} (pos : 0 < precision)
    (bound : significand.natAbs ≤ 10 ^ precision) : (ofScaled significand exponent limit).digits ≤ precision := by
  rw [digits_le_iff]
  by_cases zero : significand = 0
  · simp [ofScaled, normalize, zero]
  · simp only [ofScaled, normalize, if_neg zero, Numeral.natAbs_withSign]
    exact Numeral.stripZeros_lt (by omega) pos bound

/-- Rounding changes the value of a decimal exactly when it has more digits than asked for. -/
theorem roundDigits_eq_self_iff : roundDigits precision x.toRat = x.toRat ↔ x.digits ≤ precision := by
  constructor
  · intro kept
    by_contra many
    have nonzero : x.significand ≠ 0 := by
      intro zero
      have none : x.digits = 0 := by rw [digits, zero]; rfl
      omega
    have multiple := eq_mul_of_roundTo_eq (lastPlace_pos precision x.toRat) kept
    generalize round (|x.toRat| / lastPlace precision x.toRat) = k at multiple
    have excess : ((x.digits - precision : ℕ) : ℤ) = x.digits - precision := by omega
    rw [abs_toRat, lastPlace_toRat nonzero, zpow_add₀ (by norm_num), ← excess, zpow_natCast] at multiple
    have scale : (10 : ℚ) ^ x.exponent ≠ 0 := zpow_ne_zero _ (by norm_num)
    have whole : (x.significand.natAbs : ℚ) = k * 10 ^ (x.digits - precision) := by
      apply mul_right_cancel₀ scale
      rw [multiple]
      ring
    rw [← Int.cast_natCast] at whole
    have whole : (x.significand.natAbs : ℤ) = k * 10 ^ (x.digits - precision) := by
      rw [← Int.cast_inj (α := ℚ), whole]
      push_cast
      rfl
    have last := x.normal
    rw [Normal, if_neg nonzero] at last
    have ten : (10 : ℤ) ∣ x.significand.natAbs := by
      rw [whole]
      exact dvd_mul_of_dvd_right (dvd_pow_self 10 (by omega)) k
    omega
  · exact roundDigits_of_digits_le

/-- The number of digits is that of the value, whatever the precision. -/
theorem digits_congr {y : Decimal} (value : x.toRat = y.toRat) : x.digits = y.digits := by
  apply le_antisymm
  · rw [← roundDigits_eq_self_iff, value, roundDigits_eq_self_iff]
  · rw [← roundDigits_eq_self_iff, ← value, roundDigits_eq_self_iff]

/-- What `withPrecision` can bring to at most `precision` digits: it cuts only below a precision that the decimal has. -/
def Roundable (precision : ℕ) (x : Decimal) : Prop := precision < x.precision ∨ x.digits ≤ precision

instance (precision : ℕ) (x : Decimal) : Decidable (x.Roundable precision) :=
  inferInstanceAs (Decidable (_ ∨ _))

theorem roundable_of_digits_le (limited : x.digits ≤ x.precision) (precision : ℕ) : x.Roundable precision := by
  rw [Roundable]
  omega

theorem toRat_withPrecision_of_not_roundable (kept : ¬ x.Roundable precision) :
    (x.withPrecision precision).toRat = x.toRat := by
  rw [Roundable] at kept
  rw [withPrecision, if_neg (by omega)]
  rfl

theorem digits_withPrecision_le_iff (pos : 0 < precision) :
    (x.withPrecision precision).digits ≤ precision ↔ x.Roundable precision := by
  by_cases cut : precision < x.precision ∧ precision < x.digits
  · refine iff_of_true ?_ (.inl cut.1)
    have nonneg : 0 < 10 ^ (x.digits - precision) := by positivity
    rw [withPrecision, if_pos ⟨pos, cut⟩]
    apply digits_ofScaled_le pos
    rw [Numeral.natAbs_withSign]
    apply roundDiv_le_of_le _ nonneg
    have small := (digits_le_iff (x := x)).mp le_rfl
    rw [← pow_add, show x.digits - precision + precision = x.digits by omega]
    exact small.le
  · have kept : ¬ (0 < precision ∧ precision < x.precision ∧ precision < x.digits) := by omega
    have same : (x.withPrecision precision).digits = x.digits := by
      rw [withPrecision, if_neg kept]
      rfl
    rw [same, Roundable]
    omega

/-- The value is correctly rounded exactly when the decimal could be brought to so few digits. -/
theorem toRat_withPrecision_eq_iff (pos : 0 < precision) :
    (x.withPrecision precision).toRat = roundDigits precision x.toRat ↔ x.Roundable precision := by
  constructor
  · intro rounded
    by_contra kept
    rw [toRat_withPrecision_of_not_roundable kept] at rounded
    exact kept (.inr (roundDigits_eq_self_iff.mp rounded.symm))
  · exact toRat_withPrecision pos

theorem digits_ofScaled_le_length (significand exponent : ℤ) (limit : ℕ) :
    (ofScaled significand exponent limit).digits ≤ Numeral.length 10 significand.natAbs := by
  have small : significand.natAbs < 10 ^ Numeral.length 10 significand.natAbs :=
    (Numeral.length_le_iff (by decide)).mp le_rfl
  rcases Nat.eq_zero_or_pos (Numeral.length 10 significand.natAbs) with none | some
  · rw [none, pow_zero] at small
    have zero : significand = 0 := Int.natAbs_eq_zero.mp (by omega)
    simp [digits, ofScaled, normalize, zero]
  · exact digits_ofScaled_le some small.le

theorem digits_ofParts_le (significand exponent : ℤ) :
    (ofParts significand exponent).digits ≤ (ofParts significand exponent).precision :=
  (digits_ofScaled_le_length _ _ _).trans (le_max_right _ _)

theorem digits_ofRat_le (x : ℚ) (digits : ℕ) : (ofRat x digits).digits ≤ max digits 1 := by
  simp only [ofRat]
  rw [digits_withPrecision_le_iff (by omega), Roundable, quotient_precision]
  omega

theorem toRat_ofParts (significand exponent : ℤ) : (ofParts significand exponent).toRat = significand * 10 ^ exponent :=
  toRat_ofScaled _ _ _

/-- Whatever the significand that a value is written with, the decimal has no more digits. -/
theorem digits_le_of_toRat_eq {significand exponent : ℤ} (value : x.toRat = significand * 10 ^ exponent) :
    x.digits ≤ Numeral.length 10 significand.natAbs := by
  rw [← toRat_ofParts] at value
  rw [digits_congr value]
  exact digits_ofScaled_le_length _ _ _

/-- A decimal as precise as it was written is rounded correctly to any number of digits. -/
theorem toRat_withPrecision_ofParts (significand exponent : ℤ) (pos : 0 < precision) :
    ((ofParts significand exponent).withPrecision precision).toRat =
      roundDigits precision (significand * 10 ^ exponent) := by
  rw [toRat_withPrecision pos (roundable_of_digits_le (digits_ofParts_le _ _) _), toRat_ofParts]

end Decimal

end SymbolicKernel

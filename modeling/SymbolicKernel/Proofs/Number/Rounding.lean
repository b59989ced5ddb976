import SymbolicKernel.Proofs.Decimal.Digits
import SymbolicKernel.Proofs.Precision
import SymbolicKernel.Number.Real

namespace SymbolicKernel

/-- A value that `x` is rounded to as if its magnitude were greater by `slack`. It is `x` correctly rounded unless
the rounding is led past a tie. -/
structure RoundedRaised (digits : ℕ) (slack x value : ℚ) : Prop where
  value_eq : value = roundRaised (lastPlace digits x) slack x
  correct_iff : value = roundDigits digits x ↔ ¬ TieAbove (lastPlace digits x) slack x

theorem RoundedRaised.of_value_eq {digits : ℕ} {slack x value : ℚ} (nonneg : 0 ≤ slack)
    (small : 2 * slack < lastPlace digits x) (value_eq : value = roundRaised (lastPlace digits x) slack x) :
    RoundedRaised digits slack x value := by
  refine ⟨value_eq, ?_⟩
  rw [value_eq]
  exact roundRaised_eq_roundTo_iff (lastPlace_pos digits x) nonneg small

/-- Half a unit in the last place of the quotient that the decimal of `x` is rounded from. -/
def Decimal.slack (x : ℚ) (digits : ℕ) : ℚ := lastPlace (workingDigits x digits) x / 2

/-- What two roundings raise a magnitude by where the digits asked for are more than bits can count, and one rounding
where they are not. -/
def PrecisionReal.slack (x : ℚ) (digits : ℕ) : ℚ :=
  Decimal.slack x digits + if Precision.maxDigits < digits then lastPlace digits x / 2 else 0

@[simp] theorem Decimal.slack_neg (x : ℚ) (digits : ℕ) : slack (-x) digits = slack x digits := by
  rw [slack, workingDigits_neg, lastPlace_neg, slack]

@[simp] theorem PrecisionReal.slack_neg (x : ℚ) (digits : ℕ) : slack (-x) digits = slack x digits := by
  rw [slack, Decimal.slack_neg, lastPlace_neg, slack]

theorem Decimal.slack_pos (x : ℚ) (digits : ℕ) : 0 < slack x digits :=
  half_pos (lastPlace_pos _ _)

theorem Decimal.twenty_mul_slack_le (x : ℚ) (digits : ℕ) : 20 * slack x digits ≤ lastPlace (max digits 1) x := by
  have finer := ten_mul_lastPlace_le (lt_workingDigits x digits) x
  rw [slack]
  linarith

theorem Decimal.ofRat_rounded (x : ℚ) (digits : ℕ) :
    RoundedRaised (max digits 1) (slack x digits) x (ofRat x digits).toRat := by
  have pos := slack_pos x digits
  have small := twenty_mul_slack_le x digits
  exact .of_value_eq pos.le (by linarith) (toRat_ofRat_eq_roundRaised x digits)

namespace PrecisionReal

/-- A decimal as it was written is rounded to the digits that the bits are worth. -/
theorem toRat_ofParts (significand exponent : ℤ) (bits : ℕ) :
    (ofDecimal (.ofParts significand exponent) bits).toRat =
      roundDigits (Precision.bitsToDigits bits) (significand * 10 ^ exponent) :=
  Decimal.toRat_withPrecision_ofParts significand exponent (Precision.bitsToDigits_pos bits)

theorem digits_ofRat (x : ℚ) (digits : ℕ) : (ofRat x digits).digits = max 1 (min digits Precision.maxDigits) :=
  Precision.bitsToDigits_digitsToBits digits

theorem toRat_ofRat (x : ℚ) (digits : ℕ) :
    (ofRat x digits).toRat = roundRaised (lastPlace (ofRat x digits).digits x) (slack x digits) x := by
  have pos := Decimal.slack_pos x digits
  have small := Decimal.twenty_mul_slack_le x digits
  have once := (Decimal.ofRat_rounded x digits).value_eq
  have limit : (Decimal.ofRat x digits).precision = max digits 1 := Decimal.ofRat_precision x digits
  have stored : (ofRat x digits).toRat = ((Decimal.ofRat x digits).withPrecision (ofRat x digits).digits).toRat := rfl
  by_cases few : digits ≤ Precision.maxDigits
  · have same : (ofRat x digits).digits = max digits 1 := by
      rw [digits_ofRat]
      omega
    rw [stored, Decimal.toRat_withPrecision_of_le (by omega), once, same, slack, if_neg (by omega), add_zero]
  · have cut : (ofRat x digits).digits = Precision.maxDigits := by
      have some : 1 ≤ Precision.maxDigits := by decide
      rw [digits_ofRat]
      omega
    have some : 0 < Precision.maxDigits := by decide
    rw [stored, cut, Decimal.toRat_withPrecision some (by omega), once, slack, if_pos (by omega)]
    by_cases zero : x = 0
    · simp [zero, roundRaised, roundDigits]
    · have asked : max digits 1 = digits := by omega
      rw [asked] at small ⊢
      exact roundDigits_roundRaised zero some (by omega) pos.le (by linarith)

/-- What a real is that `x` was stored in to a number of digits. -/
structure Stores (r : PrecisionReal) (x : ℚ) (digits : ℕ) : Prop where
  digits_eq : r.digits = max 1 (min digits Precision.maxDigits)
  rounded : RoundedRaised r.digits (slack x digits) x r.toRat

theorem slack_nonneg (x : ℚ) (digits : ℕ) : 0 ≤ slack x digits := by
  have pos := Decimal.slack_pos x digits
  have place := lastPlace_pos digits x
  rw [slack]
  split <;> linarith

theorem two_hundred_mul_slack_le (x : ℚ) (digits : ℕ) :
    200 * slack x digits ≤ 11 * lastPlace (ofRat x digits).digits x := by
  have small := Decimal.twenty_mul_slack_le x digits
  rw [slack, digits_ofRat]
  by_cases few : digits ≤ Precision.maxDigits
  · have same : max 1 (min digits Precision.maxDigits) = max digits 1 := by omega
    have place := lastPlace_pos (max digits 1) x
    rw [same, if_neg (by omega)]
    linarith
  · have some : 1 ≤ Precision.maxDigits := by decide
    have cut : max 1 (min digits Precision.maxDigits) = Precision.maxDigits := by omega
    have asked : max digits 1 = digits := by omega
    have coarser := ten_mul_lastPlace_le (Nat.lt_of_not_le few) x
    have place := lastPlace_pos digits x
    rw [asked] at small
    rw [cut, if_pos (by omega)]
    linarith

theorem ofRat_stores (x : ℚ) (digits : ℕ) : (ofRat x digits).Stores x digits := by
  have place := lastPlace_pos (ofRat x digits).digits x
  have small := two_hundred_mul_slack_le x digits
  exact ⟨digits_ofRat x digits, .of_value_eq (slack_nonneg x digits) (by linarith) (toRat_ofRat x digits)⟩

end PrecisionReal

theorem RealSource.toReal_rational (x : ℚ) {bits : ℕ} (above : Precision.machineBits < bits) :
    ∃ r, RealSource.toReal (.rational x) (some bits) = .ok (.precise r) ∧ r.bits = bits ∧
      RoundedRaised r.digits (Decimal.slack x r.digits) x r.toRat := by
  have some : max (Precision.bitsToDigits bits) 1 = Precision.bitsToDigits bits :=
    max_eq_left (Precision.bitsToDigits_pos bits)
  have limit := Decimal.ofRat_precision x (Precision.bitsToDigits bits)
  have once := Decimal.ofRat_rounded x (Precision.bitsToDigits bits)
  rw [some] at limit once
  have kept := Decimal.toRat_withPrecision_of_le limit.le
  refine ⟨.ofDecimal (.ofRat x (Precision.bitsToDigits bits)) bits, ?_, rfl, ?_⟩
  · simp only [RealSource.toReal, Option.getD_some, if_pos above]
    rfl
  · rw [← kept] at once
    exact once

/-- The decimal of a rational, and every real that is stored through it, is the rational correctly rounded once, a
half away from zero, exactly when no tie lies above the magnitude of the rational by half a unit or less in the last
place of the division that comes first. -/
theorem rational_rounded_once_unless_tie (x : ℚ) (digits : ℕ) {bits : ℕ} (above : Precision.machineBits < bits) :
    RoundedRaised (max digits 1) (Decimal.slack x digits) x (Decimal.ofRat x digits).toRat ∧
    (PrecisionReal.ofRat x digits).Stores x digits ∧
    (∃ r, RealNumber.coerce (some digits) (.rational x) = .ok (.precise r) ∧ r.Stores x digits) ∧
    (∀ m : MachineReal, ∃ r, RealNumber.coerce (some digits) (.machine m) = .ok (.precise r) ∧
      r.Stores m.toRat digits) ∧
    ∃ r, RealSource.toReal (.rational x) (some bits) = .ok (.precise r) ∧ r.bits = bits ∧
      RoundedRaised r.digits (Decimal.slack x r.digits) x r.toRat :=
  ⟨Decimal.ofRat_rounded x digits, PrecisionReal.ofRat_stores x digits,
    ⟨_, rfl, PrecisionReal.ofRat_stores x digits⟩, fun m => ⟨_, rfl, PrecisionReal.ofRat_stores m.toRat digits⟩,
    RealSource.toReal_rational x above⟩

theorem rational_rounded_once_unless_tie_at_third :
    Precision.machineBits < 60 ∧ (Decimal.ofRat (1 / 3) 3).toRat = 333 / 1000 ∧
      ∃ r, RealSource.toReal (.rational (1 / 3)) (some 60) = .ok (.precise r) ∧ r.bits = 60 ∧
        RoundedRaised r.digits (Decimal.slack (1 / 3) r.digits) (1 / 3) r.toRat := by
  have above : Precision.machineBits < 60 := by decide
  obtain ⟨_, _, _, _, made⟩ := rational_rounded_once_unless_tie (1 / 3) 3 above
  exact ⟨above, by decide +kernel, made⟩

/-- The quotient 1.50495… is carried to 1.5050, which is a tie, and then rounded up. -/
theorem Decimal.ofRat_rounds_past_tie :
    (Decimal.ofRat (152 / 101) 3).toRat = 151 / 100 ∧ roundDigits 3 (152 / 101) = 3 / 2 := by
  refine ⟨by decide +kernel, ?_⟩
  have order : Int.log 10 |(152 / 101 : ℚ)| = 0 := log_ten_eq (by norm_num [abs_of_pos]) (by norm_num [abs_of_pos])
  have whole : round ((15200 : ℚ) / 101) = 150 := by
    rw [round_eq, Int.floor_eq_iff]
    norm_num
  have sign : SignType.sign (152 / 101 : ℚ) = 1 := sign_pos (by norm_num)
  rw [roundDigits, roundTo, lastPlace, order, sign, abs_of_pos (by norm_num)]
  norm_num [whole]

end SymbolicKernel

import SymbolicKernel.Proofs.Decimal.Rounding
import SymbolicKernel.Decimal.Quotient

namespace SymbolicKernel

namespace Decimal

/-- Number of digits that a quotient of whole numbers is carried to at a working precision. Trailing zeros aside, a
numerator below the denominator gives one digit more unless its leading digits are below those of the denominator. -/
def quotientDigits (n : ℤ) (d working : ℕ) : ℕ :=
  let a := (Numeral.stripZeros n.natAbs).1
  let b := (Numeral.stripZeros d).1
  if a < b ∧ b * 10 ^ Numeral.length 10 a ≤ a * 10 ^ Numeral.length 10 b then working + 1 else working

theorem roundDigits_scaled_div {n : ℤ} {a b shift digits : ℕ} (nonzero : n ≠ 0) (apos : 0 < a) (bpos : 0 < b)
    (order : Int.log 10 ((a : ℚ) / b) + shift + 1 = digits) (e : ℤ) :
    roundDigits digits (SignType.sign (n : ℚ) * (a / b * 10 ^ e)) =
      SignType.sign (n : ℚ) * roundDiv .awayFromZero (a * 10 ^ shift) b * 10 ^ (e - shift) := by
  have quotient : (0 : ℚ) < a / b := by positivity
  have scale : (0 : ℚ) < 10 ^ e := zpow_pos (by norm_num) e
  have magnitude : |(SignType.sign (n : ℚ) : ℚ) * (a / b * 10 ^ e)| = a / b * 10 ^ e := by
    rcases lt_or_gt_of_ne nonzero with neg | pos <;> simp [*, abs_of_pos]
  have unit : lastPlace digits (SignType.sign (n : ℚ) * (a / b * 10 ^ e)) = 10 ^ (e - shift) := by
    rw [lastPlace, magnitude, log_ten_mul_zpow quotient]
    congr 1
    omega
  have scaled : (a / b * 10 ^ e) / (10 : ℚ) ^ (e - shift) = (a * 10 ^ shift : ℕ) / b := by
    rw [zpow_sub₀ (by norm_num), zpow_natCast]
    push_cast
    field_simp
  rw [roundDigits, unit, roundTo_sign_mul (by positivity), scaled, ← roundDiv_awayFromZero _ bpos, mul_assoc]
  rfl

/-- A quotient that leaves no remainder needs no rounding when it has no more digits than asked for. -/
theorem roundDigits_whole_div {n : ℤ} {a b digits : ℕ} (nonzero : n ≠ 0) (apos : 0 < a) (bpos : 0 < b)
    (divides : b ∣ a) (short : Numeral.length 10 (a / b) ≤ digits) (e : ℤ) :
    roundDigits digits (SignType.sign (n : ℚ) * (a / b * 10 ^ e)) =
      SignType.sign (n : ℚ) * (a / b : ℕ) * 10 ^ e := by
  have order := Numeral.log_div_of_le (b := 10) (by decide) bpos (Nat.le_of_dvd apos divides)
  have reached : Int.log 10 ((a : ℚ) / b) + (digits - Numeral.length 10 (a / b) : ℕ) + 1 = digits := by omega
  have whole : a * 10 ^ (digits - Numeral.length 10 (a / b)) =
      b * (a / b * 10 ^ (digits - Numeral.length 10 (a / b))) := by
    rw [← Nat.mul_assoc, Nat.mul_div_cancel' divides]
  rw [roundDigits_scaled_div nonzero apos bpos reached, whole, roundDiv_mul_left _ _ bpos,
    zpow_sub₀ (by norm_num), zpow_natCast]
  push_cast
  field_simp

theorem div_eq_stripped {n : ℤ} {d : ℕ} (nonzero : n ≠ 0) (pos : 0 < d) :
    (n : ℚ) / d = SignType.sign (n : ℚ) * ((Numeral.stripZeros n.natAbs).1 / (Numeral.stripZeros d).1 *
      10 ^ ((Numeral.stripZeros n.natAbs).2 - (Numeral.stripZeros d).2 : ℤ)) := by
  have above := (Numeral.stripZeros_spec (n := n.natAbs) (by omega)).1
  have below := (Numeral.stripZeros_spec pos.ne').1
  generalize Numeral.stripZeros n.natAbs = top at above ⊢
  generalize Numeral.stripZeros d = bottom at below ⊢
  have signed := sign_mul_abs (n : ℚ)
  rw [← Int.cast_abs, ← Nat.cast_natAbs, ← above] at signed
  calc (n : ℚ) / d = SignType.sign (n : ℚ) * (top.1 * 10 ^ top.2 : ℕ) / (bottom.1 * 10 ^ bottom.2 : ℕ) := by
        rw [signed, below]
    _ = _ := by
        rw [zpow_sub₀ (by norm_num), zpow_natCast, zpow_natCast]
        push_cast
        ring

theorem length_stripped_le {n m : ℕ} (nonzero : n ≠ 0) (le : m ≤ (Numeral.stripZeros n).1) :
    Numeral.length 10 m ≤ Numeral.length 10 n := by
  have value := (Numeral.stripZeros_spec nonzero).1
  have kept : (Numeral.stripZeros n).1 ≤ n := by
    conv_rhs => rw [← value]
    exact Nat.le_mul_of_pos_right _ (by positivity)
  have small : n < 10 ^ Numeral.length 10 n := (Numeral.length_le_iff (by decide)).mp le_rfl
  exact (Numeral.length_le_iff (by decide)).mpr ((le.trans kept).trans_lt small)

theorem stripped_pos {n : ℕ} (nonzero : n ≠ 0) : 0 < (Numeral.stripZeros n).1 := by
  have last := (Numeral.stripZeros_spec nonzero).2
  omega

/-- A division at a working precision rounds the exact quotient once, to that many digits or to one more. -/
theorem toRat_quotient {n : ℤ} {d working : ℕ} (pos : 0 < d) (wide : Numeral.length 10 n.natAbs < working) :
    (quotient n d working).toRat = roundDigits (quotientDigits n d working) (n / d) := by
  by_cases zero : n = 0
  · simp [zero, quotient, toRat_ofScaled, roundDigits, Numeral.withSign]
  have magnitude : n.natAbs ≠ 0 := Int.natAbs_ne_zero.mpr zero
  have apos := stripped_pos magnitude
  have bpos := stripped_pos pos.ne'
  have shorter := fun m le => length_stripped_le (m := m) magnitude le
  rw [div_eq_stripped zero pos]
  simp only [quotient, quotientDigits]
  generalize Numeral.stripZeros n.natAbs = top at apos shorter ⊢
  generalize Numeral.stripZeros d = bottom at bpos ⊢
  obtain ⟨a, zerosAbove⟩ := top
  obtain ⟨b, zerosBelow⟩ := bottom
  simp only at apos bpos shorter ⊢
  by_cases le : b ≤ a
  · have order := Numeral.log_div_of_le (b := 10) (by decide) bpos le
    have short := shorter (a / b) (Nat.div_le_self a b)
    have level : ¬ (a < b ∧ b * 10 ^ Numeral.length 10 a ≤ a * 10 ^ Numeral.length 10 b) := by omega
    rw [if_neg level]
    by_cases divides : a % b = 0
    · have whole := Nat.dvd_of_mod_eq_zero divides
      rw [if_pos divides, toRat_ofScaled, Numeral.withSign_eq_sign_mul zero,
        roundDigits_whole_div zero apos bpos whole (by omega)]
    · have many : a / b ≠ 0 := (Nat.div_pos le bpos).ne'
      have reached : Int.log 10 ((a : ℚ) / b) + (working - Numeral.length 10 (a / b) : ℕ) + 1 = working := by omega
      rw [if_neg divides, if_neg many, toRat_ofScaled, Numeral.withSign_eq_sign_mul zero,
        roundDigits_scaled_div zero apos bpos reached]
  · have none : a / b = 0 := Nat.div_eq_of_lt (by omega)
    have rest : a % b = a := Nat.mod_eq_of_lt (by omega)
    have order := Numeral.log_div (b := 10) (by decide) apos bpos
    have short := shorter a le_rfl
    rw [rest, if_neg apos.ne', if_pos none, toRat_ofScaled, Numeral.withSign_eq_sign_mul zero,
      roundDigits_scaled_div zero apos bpos]
    rw [order]
    split <;> split <;> omega

theorem quotient_precision (n : ℤ) (d working : ℕ) : (quotient n d working).precision = working := by
  simp only [quotient]
  split <;> rfl

theorem le_quotientDigits (n : ℤ) (d working : ℕ) : working ≤ quotientDigits n d working := by
  simp only [quotientDigits]
  split <;> omega

/-- Number of digits of the quotient that the decimal of `x` to `digits` digits is rounded from. -/
def workingDigits (x : ℚ) (digits : ℕ) : ℕ :=
  quotientDigits x.num x.den
    (max (max digits 1) (max (Numeral.writtenLength x.num.natAbs) (Numeral.writtenLength x.den)) + 2)

/-- The sign has no part in the division. -/
@[simp] theorem workingDigits_neg (x : ℚ) (digits : ℕ) : workingDigits (-x) digits = workingDigits x digits := by
  simp only [workingDigits, quotientDigits, Rat.num_neg_eq_neg_num, Rat.den_neg_eq_den, Int.natAbs_neg]

theorem lt_workingDigits (x : ℚ) (digits : ℕ) : max digits 1 < workingDigits x digits := by
  have least := le_quotientDigits x.num x.den
    (max (max digits 1) (max (Numeral.writtenLength x.num.natAbs) (Numeral.writtenLength x.den)) + 2)
  rw [workingDigits]
  omega

/-- A rational becomes a decimal by two roundings: that of the division, and one to the digits asked for. -/
theorem toRat_ofRat (x : ℚ) (digits : ℕ) :
    (ofRat x digits).toRat = roundDigits (max digits 1) (roundDigits (workingDigits x digits) x) := by
  have wide : Numeral.length 10 x.num.natAbs ≤ Numeral.writtenLength x.num.natAbs := le_max_right _ _
  simp only [ofRat, workingDigits]
  rw [toRat_withPrecision (by omega) (by rw [quotient_precision]; omega), toRat_quotient x.den_pos (by omega),
    Rat.num_div_den]

theorem ofRat_precision (x : ℚ) (digits : ℕ) : (ofRat x digits).precision = max digits 1 :=
  withPrecision_precision _ _

/-- Both roundings together are one, of a magnitude raised by half a unit in the last place of the quotient. -/
theorem toRat_ofRat_eq_roundRaised (x : ℚ) (digits : ℕ) :
    (ofRat x digits).toRat =
      roundRaised (lastPlace (max digits 1) x) (lastPlace (workingDigits x digits) x / 2) x := by
  have fewer := lt_workingDigits x digits
  have unit := lastPlace_pos (workingDigits x digits) x
  rw [toRat_ofRat]
  by_cases zero : x = 0
  · simp [zero, roundDigits, roundRaised]
  · have once := roundDigits_roundRaised zero (by omega) fewer le_rfl (by linarith)
    rwa [roundRaised_zero_slack, zero_add] at once

end Decimal

end SymbolicKernel

import Mathlib.Data.Rat.Floor
import Mathlib.Tactic.Positivity
import SymbolicKernel.Numeral
import SymbolicKernel.Rational

namespace SymbolicKernel

/-- A power of either sign by powers of natural numbers. -/
theorem zpow_eq_div {K : Type} [Field K] {b : K} (nonzero : b ≠ 0) (k : ℤ) :
    b ^ k = b ^ k.toNat / b ^ (-k).toNat := by
  rw [← zpow_natCast, ← zpow_natCast, ← zpow_sub₀ nonzero]
  congr 1
  omega

theorem Rational.scaled_eq (significand : Int) {base : Nat} (pos : 0 < base) (exponent : Int) :
    Rational.scaled significand base exponent = significand * (base : ℚ) ^ exponent := by
  have nonzero : (base : ℚ) ≠ 0 := by positivity
  rw [Rational.scaled, Rat.mkRat_eq_div, zpow_eq_div nonzero]
  push_cast
  rw [mul_div_assoc]

theorem Rational.natAbs_num_div_den (x : ℚ) : (x.num.natAbs : ℚ) / x.den = |x| := by
  have denominator : (0 : ℚ) < x.den := by exact_mod_cast x.den_pos
  conv_rhs => rw [← Rat.num_div_den x, abs_div, abs_of_pos denominator]
  rw [Nat.cast_natAbs, Int.cast_abs]

theorem Rational.intCast_mul_neg_iff {n : ℤ} {scale : ℚ} (pos : 0 < scale) : (n : ℚ) * scale < 0 ↔ n < 0 := by
  rw [← not_le, mul_nonneg_iff_of_pos_right pos, not_le, Int.cast_lt_zero]

namespace Numeral

theorem withSign_natAbs (n : Int) : withSign (n < 0) n.natAbs = n := by
  by_cases neg : n < 0
  · simp only [withSign, neg, decide_true, if_true]
    omega
  · simp only [withSign, neg, decide_false, Bool.false_eq_true, if_false]
    omega

@[simp] theorem natAbs_withSign (negative : Bool) (n : Nat) : (withSign negative n).natAbs = n := by
  cases negative <;> simp [withSign]

theorem withSign_mul (negative : Bool) (m n : Nat) : withSign negative (m * n) = withSign negative m * n := by
  cases negative <;> simp [withSign]

theorem withSign_not (negative : Bool) (n : ℕ) : withSign (!negative) n = -withSign negative n := by
  cases negative <;> simp [withSign]

theorem withSign_cast (negative : Bool) (n : ℕ) : (withSign negative n : ℚ) = (if negative then -1 else 1) * n := by
  cases negative <;> simp [withSign]

theorem abs_withSign_mul {scale : ℚ} (pos : 0 < scale) (negative : Bool) (n : ℕ) :
    |(withSign negative n : ℚ) * scale| = n * scale := by
  rw [abs_mul, abs_of_pos pos, ← Int.cast_abs, ← Int.natCast_natAbs, natAbs_withSign, Int.cast_natCast]

theorem withSign_mul_neg_iff {negative : Bool} {n : ℕ} {scale : ℚ} (pos : 0 < scale) (nonzero : n ≠ 0) :
    (withSign negative n : ℚ) * scale < 0 ↔ negative = true := by
  rw [Rational.intCast_mul_neg_iff pos]
  cases negative <;> simp [withSign, Nat.pos_of_ne_zero nonzero]

/-- A signed magnitude is equal to another exactly when the magnitudes are, and the signs unless there is nothing
to be signed. -/
theorem withSign_inj {s t : Bool} {m n : Nat} : withSign s m = withSign t n ↔ m = n ∧ (s = t ∨ m = 0) := by
  cases s <;> cases t <;> simp [withSign] <;> omega

end Numeral

end SymbolicKernel

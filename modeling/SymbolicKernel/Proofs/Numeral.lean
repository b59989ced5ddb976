import Mathlib.Algebra.Order.Floor.Semifield
import Mathlib.Data.Int.Log
import Mathlib.Data.Rat.Floor
import Mathlib.Tactic.FieldSimp
import Mathlib.Tactic.Linarith
import Mathlib.Tactic.Positivity
import Mathlib.Tactic.Ring
import SymbolicKernel.Numeral

namespace SymbolicKernel

section Log

variable {b : ℕ} {r : ℚ} {k : ℤ}

theorem log_eq (base : 1 < b) (low : (b : ℚ) ^ k ≤ r) (high : r < (b : ℚ) ^ (k + 1)) : Int.log b r = k := by
  have positive : (0 : ℚ) < b := by positivity
  have pos : 0 < r := (zpow_pos positive k).trans_le low
  have least : k ≤ Int.log b r := (Int.zpow_le_iff_le_log base pos).mp low
  have most : Int.log b r < k + 1 := (Int.lt_zpow_iff_log_lt base pos).mp high
  omega

theorem log_mul_zpow (base : 1 < b) (pos : 0 < r) (e : ℤ) : Int.log b (r * (b : ℚ) ^ e) = Int.log b r + e := by
  have positive : (0 : ℚ) < b := by positivity
  have scale : (0 : ℚ) < (b : ℚ) ^ e := zpow_pos positive e
  have low := Int.zpow_log_le_self base pos
  have high := Int.lt_zpow_succ_log_self base r
  apply log_eq base
  · rw [zpow_add₀ positive.ne']
    gcongr
  · rw [add_right_comm, zpow_add₀ positive.ne']
    gcongr

end Log

namespace Numeral

variable {b n p q : ℕ}

theorem zpow_length_le (base : 1 < b) (nonzero : n ≠ 0) : (b : ℚ) ^ ((length b n : ℤ) - 1) ≤ n := by
  have some : 0 < length b n := (lt_length_iff base).mpr (by rw [Nat.pow_zero]; omega)
  have power : (length b n : ℤ) - 1 = (length b n - 1 : ℕ) := by omega
  rw [power, zpow_natCast]
  exact_mod_cast (lt_length_iff base).mp (Nat.sub_one_lt_of_lt some)

theorem lt_zpow_length (base : 1 < b) (n : ℕ) : (n : ℚ) < (b : ℚ) ^ (length b n : ℤ) := by
  rw [zpow_natCast]
  exact_mod_cast (length_le_iff base).mp le_rfl

theorem log_natCast (base : 1 < b) (nonzero : n ≠ 0) : Int.log b (n : ℚ) = length b n - 1 := by
  have high := lt_zpow_length base n
  exact log_eq base (zpow_length_le base nonzero) (by rwa [sub_add_cancel])

theorem log_div_of_le (base : 1 < b) (pos : 0 < q) (le : q ≤ p) : Int.log b ((p : ℚ) / q) = length b (p / q) - 1 := by
  have divisor : (0 : ℚ) < q := by exact_mod_cast pos
  have atLeast : (1 : ℚ) ≤ p / q := by
    rw [one_le_div divisor]
    exact_mod_cast le
  have whole := log_natCast base (Nat.div_pos le pos).ne'
  rw [Int.log_natCast] at whole
  rw [Int.log_of_one_le_right _ atLeast, Nat.floor_div_eq_div, whole]

/-- The leading digits of two numbers decide between the two possible orders of magnitude of their quotient. -/
theorem log_div (base : 1 < b) (ppos : 0 < p) (qpos : 0 < q) :
    Int.log b ((p : ℚ) / q) =
      length b p - length b q - if q * b ^ length b p ≤ p * b ^ length b q then 0 else 1 := by
  have positive : (0 : ℚ) < b := by positivity
  have divisor : (0 : ℚ) < q := by exact_mod_cast qpos
  have lowP := zpow_length_le base ppos.ne'
  have highP := lt_zpow_length base p
  have lowQ := zpow_length_le base qpos.ne'
  have highQ := lt_zpow_length base q
  have scaleP : (0 : ℚ) < (b : ℚ) ^ (length b p : ℤ) := zpow_pos positive _
  have scaleQ : (0 : ℚ) < (b : ℚ) ^ (length b q : ℤ) := zpow_pos positive _
  rw [zpow_sub₀ positive.ne', zpow_one] at lowP lowQ
  by_cases leading : q * b ^ length b p ≤ p * b ^ length b q
  · rw [if_pos leading]
    have leading : (q : ℚ) * (b : ℚ) ^ (length b p : ℤ) ≤ p * (b : ℚ) ^ (length b q : ℤ) := by exact_mod_cast leading
    apply log_eq base
    · rw [sub_zero, zpow_sub₀ positive.ne', div_le_div_iff₀ scaleQ divisor]
      linarith
    · rw [sub_zero, zpow_add₀ positive.ne', zpow_sub₀ positive.ne', zpow_one, div_lt_iff₀ divisor]
      calc (p : ℚ) < (b : ℚ) ^ (length b p : ℤ) := highP
        _ = (b : ℚ) ^ (length b p : ℤ) / (b : ℚ) ^ (length b q : ℤ) * b * ((b : ℚ) ^ (length b q : ℤ) / b) := by
          field_simp
        _ ≤ _ := by gcongr
  · rw [if_neg leading]
    have leading : (p : ℚ) * (b : ℚ) ^ (length b q : ℤ) < q * (b : ℚ) ^ (length b p : ℤ) := by
      exact_mod_cast Nat.lt_of_not_le leading
    apply log_eq base
    · rw [zpow_sub₀ positive.ne', zpow_sub₀ positive.ne', zpow_one, le_div_iff₀ divisor]
      calc (b : ℚ) ^ (length b p : ℤ) / (b : ℚ) ^ (length b q : ℤ) / b * q
          ≤ (b : ℚ) ^ (length b p : ℤ) / (b : ℚ) ^ (length b q : ℤ) / b * (b : ℚ) ^ (length b q : ℤ) := by gcongr
        _ = (b : ℚ) ^ (length b p : ℤ) / b := by field_simp
        _ ≤ p := lowP
    · rw [sub_add_cancel, zpow_sub₀ positive.ne', div_lt_div_iff₀ divisor scaleQ]
      linarith

/-- The order of magnitude that is counted from digits is the logarithm cut to a whole number. -/
theorem order_eq_log (base : 1 < b) (ppos : 0 < p) (qpos : 0 < q) : order b p q = Int.log b ((p : ℚ) / q) := by
  have power : 0 < b ^ length b q := by positivity
  have same : q * b ^ ((length b p : ℤ) - length b q).toNat ≤ p * b ^ (-((length b p : ℤ) - length b q)).toNat ↔
      q * b ^ length b p ≤ p * b ^ length b q := by
    rcases le_total (length b q) (length b p) with up | down
    · have none : (-((length b p : ℤ) - length b q)).toNat = 0 := by omega
      have more : ((length b p : ℤ) - length b q).toNat = length b p - length b q := by omega
      have split : q * b ^ length b p = q * b ^ (length b p - length b q) * b ^ length b q := by
        rw [mul_assoc, ← pow_add, Nat.sub_add_cancel up]
      rw [none, more, pow_zero, mul_one, split, Nat.mul_le_mul_right_iff power]
    · have none : ((length b p : ℤ) - length b q).toNat = 0 := by omega
      have more : (-((length b p : ℤ) - length b q)).toNat = length b q - length b p := by omega
      have split : p * b ^ length b q = p * b ^ (length b q - length b p) * b ^ length b p := by
        rw [mul_assoc, ← pow_add, Nat.sub_add_cancel down]
      rw [none, more, pow_zero, mul_one, split, Nat.mul_le_mul_right_iff (by positivity)]
  rw [log_div base ppos qpos, order]
  simp only [same]
  split <;> simp

end Numeral

end SymbolicKernel

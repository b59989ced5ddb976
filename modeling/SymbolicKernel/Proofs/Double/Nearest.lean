import SymbolicKernel.Proofs.Double.Value
import SymbolicKernel.Proofs.Rounding
import SymbolicKernel.Double.Nearest

namespace SymbolicKernel

/-- A mantissa and a block of codes name one value, also when the mantissa is the first of the next block. -/
theorem codeUnits_add {m k : ℕ} (few : m ≤ 2 ^ 53) (full : 2 ^ 52 ≤ m ∨ k = 0) :
    codeUnits (m + k * 2 ^ 52) = m * 2 ^ k := by
  by_cases low : m < 2 ^ 52
  · have first : k = 0 := by omega
    rw [first, codeUnits_of_lt (by omega)]
    omega
  rw [codeUnits_of_le (by omega)]
  by_cases carried : m = 2 ^ 53
  · have block : (m + k * 2 ^ 52) / 2 ^ 52 - 1 = k + 1 := by omega
    have rest : (m + k * 2 ^ 52) % 2 ^ 52 = 0 := by omega
    rw [block, rest, carried, pow_succ]
    ring
  · have block : (m + k * 2 ^ 52) / 2 ^ 52 - 1 = k := by omega
    have rest : (m + k * 2 ^ 52) % 2 ^ 52 = m - 2 ^ 52 := by omega
    rw [block, rest, Nat.add_sub_cancel' (by omega)]

/-- The exponent of the last binary place of the doubles about `x`. -/
def lastExponent (x : ℚ) : ℤ := max (Int.log 2 |x|) (-1022) - 52

theorem lastExponent_pos (x : ℚ) : (0 : ℚ) < 2 ^ lastExponent x := zpow_pos (by norm_num) _

theorem abs_div_lt (x : ℚ) : |x| / 2 ^ lastExponent x < 2 ^ 53 := by
  have log : |x| < 2 ^ (Int.log 2 |x| + 1) := by
    exact_mod_cast Int.lt_zpow_succ_log_self (b := 2) (by decide) |x|
  have grows : Int.log 2 |x| + 1 ≤ lastExponent x + (53 : ℕ) := by
    rw [lastExponent]
    omega
  rw [div_lt_iff₀ (lastExponent_pos x), mul_comm, ← zpow_natCast, ← zpow_add₀ (by norm_num)]
  exact log.trans_le (zpow_le_zpow_right₀ (by norm_num) grows)

theorem le_abs_div {x : ℚ} (nonzero : x ≠ 0) (normal : -1022 ≤ Int.log 2 |x|) :
    2 ^ 52 ≤ |x| / 2 ^ lastExponent x := by
  have log : (2 : ℚ) ^ Int.log 2 |x| ≤ |x| := by
    exact_mod_cast Int.zpow_log_le_self (b := 2) (by decide) (abs_pos.mpr nonzero)
  have order : lastExponent x + (52 : ℕ) = Int.log 2 |x| := by
    rw [lastExponent]
    omega
  rwa [le_div_iff₀ (lastExponent_pos x), mul_comm, ← zpow_natCast, ← zpow_add₀ (by norm_num), order]

/-- The mantissa of the double nearest to `p / q`, before a carry. -/
def nearestMantissa (p q : ℕ) : ℕ :=
  roundDiv .toEven (p * 2 ^ (-lastExponent (p / q)).toNat) (q * 2 ^ (lastExponent (p / q)).toNat)

/-- The code nearest to `p / q` when codes go on past the finite ones. -/
def unboundedCode (p q : ℕ) : ℕ := nearestMantissa p q + (lastExponent (p / q) + 1074).toNat * 2 ^ 52

section Nearest

variable {p q : ℕ}

theorem abs_div_natCast (p q : ℕ) : |(p : ℚ) / q| = p / q := abs_of_nonneg (by positivity)

theorem nearestCode_eq (ppos : 0 < p) (qpos : 0 < q) :
    nearestCode p q = min (unboundedCode p q) infinityCode := by
  have above : (52 - max (Int.log 2 ((p : ℚ) / q)) (-1022)) = -lastExponent (p / q) := by
    rw [lastExponent, abs_div_natCast]
    omega
  have below : max (Int.log 2 ((p : ℚ) / q)) (-1022) - 52 = lastExponent (p / q) := by
    rw [lastExponent, abs_div_natCast]
  have block : max (Int.log 2 ((p : ℚ) / q)) (-1022) + 1022 = lastExponent (p / q) + 1074 := by omega
  rw [nearestCode, if_neg ppos.ne', Numeral.order_eq_log (by decide) ppos qpos]
  simp only [above, below, block, nearestMantissa, unboundedCode]

theorem scaled_div (p : ℕ) (qpos : 0 < q) :
    ((p * 2 ^ (-lastExponent (p / q)).toNat : ℕ) : ℚ) / (q * 2 ^ (lastExponent (p / q)).toNat : ℕ) =
      p / q / 2 ^ lastExponent (p / q) := by
  generalize lastExponent (p / q) = e
  have divisor : (q : ℚ) ≠ 0 := by positivity
  rw [zpow_eq_div (by norm_num : (2 : ℚ) ≠ 0)]
  push_cast
  field_simp

theorem abs_nearestMantissa_sub_le (p : ℕ) (qpos : 0 < q) :
    |(nearestMantissa p q : ℚ) - p / q / 2 ^ lastExponent (p / q)| ≤ 1 / 2 := by
  rw [← scaled_div p qpos]
  exact abs_roundDiv_sub_le _ _ (by positivity)

theorem nearestMantissa_le (p : ℕ) (qpos : 0 < q) : nearestMantissa p q ≤ 2 ^ 53 := by
  have divisor : (0 : ℚ) < (q * 2 ^ (lastExponent (p / q)).toNat : ℕ) := by positivity
  have quotient := (abs_div_lt ((p : ℚ) / q)).le
  rw [abs_div_natCast, ← scaled_div p qpos, div_le_iff₀' divisor] at quotient
  exact roundDiv_le_of_le _ (by positivity) (by exact_mod_cast quotient)

/-- Only in the lowest block of codes can a mantissa be without its leading bit. -/
theorem le_nearestMantissa (ppos : 0 < p) (qpos : 0 < q) :
    2 ^ 52 ≤ nearestMantissa p q ∨ (lastExponent (p / q) + 1074).toNat = 0 := by
  by_cases normal : -1022 ≤ Int.log 2 |(p : ℚ) / q|
  · left
    have divisor : (0 : ℚ) < (q * 2 ^ (lastExponent (p / q)).toNat : ℕ) := by positivity
    have quotient := le_abs_div (by positivity) normal
    rw [abs_div_natCast, ← scaled_div p qpos, le_div_iff₀' divisor] at quotient
    exact le_roundDiv_of_le _ (by positivity) (by exact_mod_cast quotient)
  · right
    rw [lastExponent]
    omega

theorem codeUnits_unboundedCode (ppos : 0 < p) (qpos : 0 < q) :
    codeUnits (unboundedCode p q) * leastDouble = nearestMantissa p q * 2 ^ lastExponent (p / q) := by
  have least : -1022 - 52 ≤ lastExponent (p / q) := sub_le_sub_right (le_max_right _ _) 52
  have shift : (((lastExponent (p / q) + 1074).toNat : ℕ) : ℤ) = lastExponent (p / q) + 1074 := by omega
  have exponent : lastExponent ((p : ℚ) / q) + 1074 + -1074 = lastExponent (p / q) := by omega
  rw [unboundedCode, codeUnits_add (nearestMantissa_le p qpos) (le_nearestMantissa ppos qpos), leastDouble,
    Nat.cast_mul, Nat.cast_pow, Nat.cast_ofNat, mul_assoc, ← zpow_natCast (2 : ℚ), shift,
    ← zpow_add₀ (by norm_num), exponent]

/-- The nearest double, if it is finite, is off by no more than half a unit in its last place. -/
theorem abs_codeUnits_nearestCode_sub_le (ppos : 0 < p) (qpos : 0 < q) (finite : nearestCode p q < infinityCode) :
    |codeUnits (nearestCode p q) * leastDouble - p / q| ≤ 2 ^ lastExponent (p / q) / 2 := by
  have unit := lastExponent_pos ((p : ℚ) / q)
  have code := nearestCode_eq ppos qpos
  rw [min_eq_left (by omega)] at code
  have near := abs_nearestMantissa_sub_le p qpos
  calc |codeUnits (nearestCode p q) * leastDouble - p / q|
      = |(nearestMantissa p q : ℚ) - p / q / 2 ^ lastExponent (p / q)| * 2 ^ lastExponent (p / q) := by
        conv_rhs => rw [← abs_of_pos unit, ← abs_mul]
        rw [code, codeUnits_unboundedCode ppos qpos, abs_of_pos unit, sub_mul, div_mul_cancel₀ _ unit.ne']
    _ ≤ 1 / 2 * 2 ^ lastExponent (p / q) := by gcongr
    _ = 2 ^ lastExponent (p / q) / 2 := by ring

end Nearest

/-- A finite double is within half a unit in the last place of the number it is nearest to. -/
theorem Double.abs_ofRat_sub_le {x : ℚ} {y : MachineReal} (nonzero : x ≠ 0) (nearest : Double.ofRat x = .finite y) :
    |y.toRat - x| ≤ 2 ^ lastExponent x / 2 := by
  have some : 0 < x.num.natAbs := Int.natAbs_pos.mpr (Rat.num_ne_zero.mpr nonzero)
  have place : lastExponent |x| = lastExponent x := by rw [lastExponent, lastExponent, abs_abs]
  rw [Double.ofRat, Double.ofCode] at nearest
  split at nearest
  · rename_i finite
    cases nearest
    have near := abs_codeUnits_nearestCode_sub_le some x.den_pos finite
    rw [Rational.natAbs_num_div_den, place] at near
    rw [MachineReal.toRat_eq]
    by_cases neg : x.num < 0
    · have magnitude : |x| = -x := abs_of_neg (Rat.num_neg.mp neg)
      rw [magnitude, ← abs_neg] at near
      simpa [Numeral.withSign, neg, sub_eq_add_neg, add_comm] using near
    · have magnitude : |x| = x := abs_of_nonneg (Rat.num_nonneg.mp (not_lt.mp neg))
      rw [magnitude] at near
      simpa [Numeral.withSign, neg] using near
  · cases nearest

/-- The least double whose last place is set by its own magnitude. -/
def leastNormal : ℚ := 2 ^ (-1022 : ℤ)

theorem leastNormal_pos : 0 < leastNormal := zpow_pos (by norm_num) _

theorem leastNormal_le_one : leastNormal ≤ 1 := zpow_le_one_of_nonpos₀ (by norm_num) (by norm_num)

theorem two_zpow_lastExponent_le {x : ℚ} (nonzero : x ≠ 0) :
    (2 : ℚ) ^ lastExponent x ≤ 2 ^ (-52 : ℤ) * max |x| leastNormal := by
  have log : (2 : ℚ) ^ Int.log 2 |x| ≤ |x| := by
    exact_mod_cast Int.zpow_log_le_self (b := 2) (by decide) (abs_pos.mpr nonzero)
  rw [lastExponent, sub_eq_neg_add, zpow_add₀ (by norm_num)]
  gcongr
  rcases max_choice (Int.log 2 |x|) (-1022) with order | order <;> rw [order]
  · exact log.trans (le_max_left _ _)
  · exact le_max_right _ _

/-- A finite double keeps the first 53 binary places of the number it is nearest to. -/
theorem Double.abs_ofRat_sub_le_mul {x : ℚ} {y : MachineReal} (nearest : Double.ofRat x = .finite y) :
    |y.toRat - x| ≤ 2 ^ (-53 : ℤ) * max |x| leastNormal := by
  by_cases zero : x = 0
  · rw [zero] at nearest ⊢
    cases nearest
    simp [MachineReal.toRat_eq, codeUnits_zero, nearestCode, Numeral.withSign, leastNormal_pos.le]
  · have near := Double.abs_ofRat_sub_le zero nearest
    have place := two_zpow_lastExponent_le zero
    have halved : (2 : ℚ) ^ (-53 : ℤ) = 2 ^ (-52 : ℤ) / 2 := by norm_num
    calc |y.toRat - x| ≤ 2 ^ lastExponent x / 2 := near
      _ ≤ 2 ^ (-52 : ℤ) * max |x| leastNormal / 2 := by gcongr
      _ = 2 ^ (-53 : ℤ) * max |x| leastNormal := by rw [halved, div_mul_eq_mul_div]

end SymbolicKernel

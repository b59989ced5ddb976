import Mathlib.Algebra.Order.Round
import Mathlib.Data.Sign.Basic
import SymbolicKernel.Proofs.Numeral
import SymbolicKernel.Rounding

namespace SymbolicKernel

theorem abs_roundDiv_sub_le (tie : Tie) (n : Nat) {d : Nat} (pos : 0 < d) :
    |(roundDiv tie n d : ℚ) - n / d| ≤ 1 / 2 := by
  have divisor : (0 : ℚ) < d := by exact_mod_cast pos
  have below : (2 * (d * roundDiv tie n d) : ℚ) ≤ 2 * n + d := by exact_mod_cast roundDiv_le tie n d
  have above : (2 * n : ℚ) ≤ 2 * (d * roundDiv tie n d) + d := by exact_mod_cast le_roundDiv tie pos
  have quotient : (n : ℚ) / d * d = n := div_mul_cancel₀ _ divisor.ne'
  rw [abs_le]
  constructor <;> nlinarith

theorem roundDiv_le_of_le (tie : Tie) {n d k : Nat} (pos : 0 < d) (le : n ≤ d * k) : roundDiv tie n d ≤ k := by
  have bound := roundDiv_le tie n d
  have next : d * (k + 1) = d * k + d := Nat.mul_succ d k
  exact Nat.le_of_lt_succ (Nat.lt_of_mul_lt_mul_left (a := d) (by rw [next]; omega))

theorem le_roundDiv_of_le (tie : Tie) {n d k : Nat} (pos : 0 < d) (le : d * k ≤ n) : k ≤ roundDiv tie n d := by
  have bound := le_roundDiv (n := n) tie pos
  have next : d * (roundDiv tie n d + 1) = d * roundDiv tie n d + d := Nat.mul_succ d _
  exact Nat.le_of_lt_succ (Nat.lt_of_mul_lt_mul_left (a := d) (by rw [next]; omega))

theorem lt_roundDiv_awayFromZero (n : Nat) {d : Nat} (pos : 0 < d) :
    2 * n + d < 2 * (d * (roundDiv .awayFromZero n d + 1)) := by
  have whole := Nat.div_add_mod n d
  have rest := Nat.mod_lt n pos
  by_cases up : d ≤ 2 * (n % d)
  · have value : roundDiv .awayFromZero n d = n / d + 1 := by simp [roundDiv, Tie.roundsUp, up]
    have next : d * (n / d + 1 + 1) = d * (n / d) + 2 * d := by ring
    rw [value, next]
    omega
  · have value : roundDiv .awayFromZero n d = n / d := by simp [roundDiv, Tie.roundsUp, up]
    rw [value, Nat.mul_add]
    omega

/-- The library rounds a tie upwards, which is away from zero for the magnitudes that are divided here. -/
theorem roundDiv_awayFromZero (n : Nat) {d : Nat} (pos : 0 < d) :
    (roundDiv .awayFromZero n d : ℤ) = round ((n : ℚ) / d) := by
  have divisor : (0 : ℚ) < d := by exact_mod_cast pos
  have below : (2 * (d * roundDiv .awayFromZero n d) : ℚ) ≤ 2 * n + d := by
    exact_mod_cast roundDiv_le .awayFromZero n d
  have above : (2 * n + d : ℚ) < 2 * (d * (roundDiv .awayFromZero n d + 1)) := by
    exact_mod_cast lt_roundDiv_awayFromZero n pos
  have halves : (n : ℚ) / d + 1 / 2 = (2 * n + d) / (2 * d) := by field_simp
  rw [round_eq, halves, eq_comm, Int.floor_eq_iff, le_div_iff₀ (by positivity), div_lt_iff₀ (by positivity)]
  push_cast
  constructor <;> linarith

/-- The multiple of `unit` nearest to `x`, of two equally near ones that farther from zero. -/
def roundTo (unit x : ℚ) : ℚ := SignType.sign x * (round (|x| / unit) * unit)

/-- The same after the magnitude of `x` has been raised by `slack`. -/
def roundRaised (unit slack x : ℚ) : ℚ := SignType.sign x * (round ((|x| + slack) / unit) * unit)

/-- The value of a one in the last of `digits` significant decimal digits of `x`. -/
def lastPlace (digits : Nat) (x : ℚ) : ℚ := 10 ^ (Int.log 10 |x| - digits + 1)

/-- `x` rounded to significant decimal digits. -/
def roundDigits (digits : Nat) (x : ℚ) : ℚ := roundTo (lastPlace digits x) x

/-- Some tie between two multiples of `unit` is above the magnitude of `x`, but by no more than `slack`. -/
def TieAbove (unit slack x : ℚ) : Prop :=
  ∃ k : ℤ, |x| < (k + 1 / 2) * unit ∧ (k + 1 / 2) * unit ≤ |x| + slack

theorem lastPlace_pos (digits : Nat) (x : ℚ) : 0 < lastPlace digits x := zpow_pos (by norm_num) _

@[simp] theorem lastPlace_neg (digits : Nat) (x : ℚ) : lastPlace digits (-x) = lastPlace digits x := by
  rw [lastPlace, abs_neg, lastPlace]

theorem pow_mul_lastPlace_le (digits : Nat) {x : ℚ} (nonzero : x ≠ 0) : 10 ^ digits * lastPlace digits x ≤ 10 * |x| := by
  have log : (10 : ℚ) ^ Int.log 10 |x| ≤ |x| := by
    exact_mod_cast Int.zpow_log_le_self (b := 10) (by decide) (abs_pos.mpr nonzero)
  calc (10 : ℚ) ^ digits * lastPlace digits x = 10 * 10 ^ Int.log 10 |x| := by
        rw [lastPlace, ← zpow_natCast, ← zpow_add₀ (by norm_num), ← zpow_one_add₀ (by norm_num)]
        congr 1
        ring
    _ ≤ 10 * |x| := by gcongr

section Rounding

variable {unit fine slack x : ℚ}

@[simp] theorem roundTo_zero (unit : ℚ) : roundTo unit 0 = 0 := by simp [roundTo]

@[simp] theorem roundRaised_zero_slack (unit x : ℚ) : roundRaised unit 0 x = roundTo unit x := by
  simp [roundRaised, roundTo]

theorem roundTo_neg (unit x : ℚ) : roundTo unit (-x) = -roundTo unit x := by
  simp [roundTo, Left.sign_neg]

theorem roundRaised_neg (unit slack x : ℚ) : roundRaised unit slack (-x) = -roundRaised unit slack x := by
  simp [roundRaised, Left.sign_neg]

theorem roundTo_of_nonneg (nonneg : 0 ≤ x) : roundTo unit x = round (x / unit) * unit := by
  rcases nonneg.eq_or_lt with zero | pos
  · simp [← zero]
  · simp [roundTo, pos, abs_of_pos]

/-- Only the magnitude is rounded: the sign is put back on what comes of it. -/
theorem roundTo_sign_mul {m : ℚ} (nonneg : 0 ≤ m) :
    roundTo unit (SignType.sign x * m) = SignType.sign x * (round (m / unit) * unit) := by
  rcases lt_trichotomy x 0 with neg | zero | pos
  · simp [neg, roundTo_neg, roundTo_of_nonneg nonneg]
  · simp [zero]
  · simp [pos, roundTo_of_nonneg nonneg]

theorem roundTo_of_abs_eq (pos : 0 < unit) {k : ℤ} (multiple : |x| = k * unit) : roundTo unit x = x := by
  rw [roundTo, multiple, mul_div_cancel_right₀ _ pos.ne', round_intCast, ← multiple, sign_mul_abs]

/-- Rounding to a whole number, and then to a multiple of `2 * n`, goes up where a half unit of the first rounding
is enough to go up. -/
theorem round_round_div (y : ℚ) {n : ℕ} (pos : 0 < n) :
    round ((round y : ℚ) / (2 * n)) = round ((y + 1 / 2) / (2 * n)) := by
  have nonzero : (n : ℚ) ≠ 0 := by positivity
  have shifted : ∀ z : ℚ, z / (2 * n) + 1 / 2 = (z + n) / (2 * n : ℕ) := by
    intro z
    push_cast
    field_simp
  rw [round_eq, round_eq, round_eq, shifted, shifted, Int.floor_div_natCast, Int.floor_div_natCast]
  congr 1
  rw [Int.floor_add_natCast, Int.floor_add_natCast, Int.floor_intCast]

theorem round_nonneg (nonneg : 0 ≤ x) : 0 ≤ round x := by
  rw [round_eq]
  exact Int.floor_nonneg.mpr (by linarith)

/-- Rounding twice is rounding once a magnitude raised by half a unit of the finer grid. -/
theorem roundTo_roundRaised (pos : 0 < fine) (nonneg : 0 ≤ slack) {n : ℕ} (some : 0 < n)
    (coarser : unit = 2 * n * fine) :
    roundTo unit (roundRaised fine slack x) = roundRaised unit (slack + fine / 2) x := by
  have raised : 0 ≤ (|x| + slack) / fine := by positivity
  have whole : (0 : ℚ) ≤ round ((|x| + slack) / fine) := by exact_mod_cast round_nonneg raised
  have once : (round ((|x| + slack) / fine) : ℚ) * fine / unit = round ((|x| + slack) / fine) / (2 * n) := by
    rw [coarser]
    field_simp
  have twice : (|x| + (slack + fine / 2)) / unit = ((|x| + slack) / fine + 1 / 2) / (2 * n) := by
    rw [coarser]
    field_simp
    ring
  rw [roundRaised, roundTo_sign_mul (by positivity), once, round_round_div _ some, roundRaised, twice]

/-- Raising the magnitude changes the outcome exactly when a tie is passed. -/
theorem roundRaised_eq_roundTo_iff (pos : 0 < unit) (nonneg : 0 ≤ slack) (small : 2 * slack < unit) :
    roundRaised unit slack x = roundTo unit x ↔ ¬ TieAbove unit slack x := by
  have tie_iff : ∀ (k : ℤ) (y : ℚ), (k + 1 / 2) * unit ≤ y ↔ k < round (y / unit) := by
    intro k y
    rw [← Int.add_one_le_iff, round_eq, Int.le_floor, ← le_div_iff₀ pos]
    push_cast
    constructor <;> intro <;> linarith
  have grows : round (|x| / unit) ≤ round ((|x| + slack) / unit) := by
    rw [round_eq, round_eq]
    gcongr
    linarith
  have passed_iff : TieAbove unit slack x ↔ round (|x| / unit) < round ((|x| + slack) / unit) := by
    constructor
    · rintro ⟨k, above, near⟩
      rw [← not_le, tie_iff] at above
      rw [tie_iff] at near
      omega
    · intro jump
      refine ⟨round (|x| / unit), ?_, (tie_iff _ _).mpr jump⟩
      rw [← not_le, tie_iff]
      exact lt_irrefl _
  rw [passed_iff, not_lt]
  by_cases zero : x = 0
  · have still : round (slack / unit) = 0 := by
      have positive : 0 ≤ slack / unit := by positivity
      have below : slack / unit < 1 / 2 := by
        rw [div_lt_iff₀ pos]
        linarith
      rw [round_eq_zero_iff]
      exact ⟨by linarith, below⟩
    simp [zero, roundRaised, still]
  · have signed : (SignType.sign x : ℚ) ≠ 0 := by
      rcases lt_or_gt_of_ne zero with neg | pos <;> simp [*]
    rw [roundRaised, roundTo, mul_right_inj' signed, mul_left_inj' pos.ne', Int.cast_inj]
    omega

theorem abs_roundRaised (pos : 0 < unit) (nonneg : 0 ≤ slack) (nonzero : x ≠ 0) :
    |roundRaised unit slack x| = round ((|x| + slack) / unit) * unit := by
  have raised : 0 ≤ (|x| + slack) / unit := by positivity
  have whole : (0 : ℚ) ≤ round ((|x| + slack) / unit) := by exact_mod_cast round_nonneg raised
  have magnitude : |round ((|x| + slack) / unit) * unit| = round ((|x| + slack) / unit) * unit :=
    abs_of_nonneg (by positivity)
  rcases lt_or_gt_of_ne nonzero with neg | pos <;> simp [roundRaised, *]

theorem abs_roundRaised_sub_le (pos : 0 < unit) (nonneg : 0 ≤ slack) :
    |roundRaised unit slack x - x| ≤ unit / 2 + slack := by
  by_cases zero : x = 0
  · simp only [roundRaised, zero, sign_zero, SignType.coe_zero, zero_mul, sub_zero, abs_zero]
    positivity
  have near : |(round ((|x| + slack) / unit) : ℚ) * unit - (|x| + slack)| ≤ unit / 2 := by
    calc |(round ((|x| + slack) / unit) : ℚ) * unit - (|x| + slack)|
        = |(|x| + slack) / unit - round ((|x| + slack) / unit)| * unit := by
          conv_rhs => rw [← abs_of_pos pos, ← abs_mul]
          rw [abs_of_pos pos, sub_mul, div_mul_cancel₀ _ pos.ne', abs_sub_comm]
      _ ≤ 1 / 2 * unit := by
          gcongr
          exact abs_sub_round _
      _ = unit / 2 := by ring
  have magnitude : |(round ((|x| + slack) / unit) : ℚ) * unit - abs x| ≤ unit / 2 + slack := by
    rw [abs_le] at near ⊢
    constructor <;> linarith
  have signed : roundRaised unit slack x - x = SignType.sign x * (round ((|x| + slack) / unit) * unit - |x|) := by
    rw [mul_sub, sign_mul_abs, roundRaised]
  rcases lt_or_gt_of_ne zero with neg | pos
  · rwa [signed, sign_neg neg, SignType.coe_neg_one, neg_one_mul, abs_neg]
  · rwa [signed, sign_pos pos, SignType.coe_one, one_mul]

end Rounding

section Digits

variable {x slack : ℚ} {coarse fine : Nat}

theorem roundDigits_neg (digits : Nat) (x : ℚ) : roundDigits digits (-x) = -roundDigits digits x := by
  rw [roundDigits, lastPlace_neg, roundTo_neg, roundDigits]

theorem log_ten_eq {r : ℚ} {k : ℤ} (low : (10 : ℚ) ^ k ≤ r) (high : r < (10 : ℚ) ^ (k + 1)) :
    Int.log 10 r = k :=
  log_eq (by decide) (by exact_mod_cast low) (by exact_mod_cast high)

theorem log_ten_mul_zpow {r : ℚ} (pos : 0 < r) (e : ℤ) : Int.log 10 (r * 10 ^ e) = Int.log 10 r + e := by
  exact_mod_cast log_mul_zpow (b := 10) (by decide) pos e

theorem pow_mul_lastPlace (digits : Nat) (x : ℚ) :
    10 ^ digits * lastPlace digits x = 10 ^ (Int.log 10 |x| + 1) := by
  rw [lastPlace, ← zpow_natCast, ← zpow_add₀ (by norm_num)]
  congr 1
  ring

theorem lastPlace_eq_mul (fewer : coarse < fine) (x : ℚ) :
    lastPlace coarse x = 2 * (5 * 10 ^ (fine - coarse - 1) : ℕ) * lastPlace fine x := by
  have apart : ((fine - coarse - 1 : ℕ) : ℤ) = fine - coarse - 1 := by omega
  have sum : Int.log 10 |x| - coarse + 1 = 1 + (fine - coarse - 1 : ℤ) + (Int.log 10 |x| - fine + 1) := by ring
  rw [lastPlace, lastPlace, sum, zpow_add₀ (by norm_num), zpow_add₀ (by norm_num), ← apart, zpow_natCast]
  push_cast
  ring

theorem lastPlace_anti (le : coarse ≤ fine) (x : ℚ) : lastPlace fine x ≤ lastPlace coarse x := by
  rw [lastPlace, lastPlace]
  gcongr
  norm_num

theorem ten_mul_lastPlace_le (fewer : coarse < fine) (x : ℚ) : 10 * lastPlace fine x ≤ lastPlace coarse x := by
  have pos := lastPlace_pos fine x
  have power : (1 : ℚ) ≤ 10 ^ (fine - coarse - 1) := one_le_pow₀ (by norm_num)
  rw [lastPlace_eq_mul fewer x]
  push_cast
  nlinarith

theorem lastPlace_congr {y : ℚ} (same : Int.log 10 |x| = Int.log 10 |y|) (digits : Nat) :
    lastPlace digits x = lastPlace digits y := by
  rw [lastPlace, lastPlace, same]

/-- Rounding keeps the order of magnitude, except that it may reach the next power of ten. -/
theorem abs_roundRaised_mem (some : 0 < fine) (nonzero : x ≠ 0) (nonneg : 0 ≤ slack)
    (small : 2 * slack ≤ lastPlace fine x) :
    10 ^ Int.log 10 |x| ≤ |roundRaised (lastPlace fine x) slack x| ∧
      |roundRaised (lastPlace fine x) slack x| ≤ 10 ^ (Int.log 10 |x| + 1) := by
  have pos := lastPlace_pos fine x
  have low : (10 : ℚ) ^ Int.log 10 |x| ≤ |x| := by
    exact_mod_cast Int.zpow_log_le_self (b := 10) (by decide) (abs_pos.mpr nonzero)
  have high : |x| < (10 : ℚ) ^ (Int.log 10 |x| + 1) := by
    exact_mod_cast Int.lt_zpow_succ_log_self (b := 10) (by decide) |x|
  have top := pow_mul_lastPlace fine x
  have bottom : (10 : ℚ) ^ (fine - 1) * lastPlace fine x = 10 ^ Int.log 10 |x| := by
    have tenfold : (10 : ℚ) ^ fine = 10 ^ (fine - 1) * 10 := by
      rw [← pow_succ, Nat.sub_add_cancel some]
    rw [tenfold, zpow_add₀ (by norm_num), zpow_one] at top
    linarith
  rw [abs_roundRaised pos nonneg nonzero, ← top, ← bottom]
  constructor
  · have least : ((10 ^ (fine - 1) : ℕ) : ℤ) ≤ round ((|x| + slack) / lastPlace fine x) := by
      rw [round_eq, Int.le_floor]
      push_cast
      have quotient : (10 : ℚ) ^ (fine - 1) ≤ (|x| + slack) / lastPlace fine x := by
        rw [le_div_iff₀ pos]
        linarith
      linarith
    have cast : (10 : ℚ) ^ (fine - 1) ≤ round ((|x| + slack) / lastPlace fine x) := by exact_mod_cast least
    gcongr
  · have most : round ((|x| + slack) / lastPlace fine x) < ((10 ^ fine : ℕ) : ℤ) + 1 := by
      rw [round_eq, Int.floor_lt]
      push_cast
      have quotient : (|x| + slack) / lastPlace fine x < 10 ^ fine + 1 / 2 := by
        rw [div_lt_iff₀ pos]
        linarith
      linarith
    have cast : (round ((|x| + slack) / lastPlace fine x) : ℚ) ≤ 10 ^ fine := by
      exact_mod_cast Int.lt_add_one_iff.mp most
    gcongr

/-- Rounding a rounded number to fewer digits is rounding once a number whose magnitude is raised by half a unit in
the last of the digits that were kept first. -/
theorem roundDigits_roundRaised (nonzero : x ≠ 0) (some : 0 < coarse) (fewer : coarse < fine)
    (nonneg : 0 ≤ slack) (small : 2 * slack ≤ lastPlace fine x) :
    roundDigits coarse (roundRaised (lastPlace fine x) slack x) =
      roundRaised (lastPlace coarse x) (slack + lastPlace fine x / 2) x := by
  have steps : 0 < 5 * 10 ^ (fine - coarse - 1) := by positivity
  obtain ⟨low, high⟩ := abs_roundRaised_mem (by omega) nonzero nonneg small
  rw [← roundTo_roundRaised (lastPlace_pos fine x) nonneg steps (lastPlace_eq_mul fewer x), roundDigits]
  generalize roundRaised (lastPlace fine x) slack x = y at low high ⊢
  rcases high.lt_or_eq with below | carried
  · have same : Int.log 10 |y| = Int.log 10 |x| := log_ten_eq low below
    rw [lastPlace_congr same]
  · -- A power of ten is a multiple of either unit, so both roundings leave it alone.
    have power : |y| = (10 ^ coarse : ℤ) * lastPlace coarse x := by
      push_cast
      rw [carried, pow_mul_lastPlace]
    have next : Int.log 10 |y| = Int.log 10 |x| + 1 := by
      rw [carried]
      exact_mod_cast Int.log_zpow (b := 10) (R := ℚ) (by decide) _
    have coarser : |y| = (10 ^ (coarse - 1) : ℤ) * lastPlace coarse y := by
      have before : ((coarse - 1 : ℕ) : ℤ) = coarse - 1 := by omega
      push_cast
      rw [carried, lastPlace, next, ← zpow_natCast, ← zpow_add₀ (by norm_num), before]
      congr 1
      ring
    rw [roundTo_of_abs_eq (lastPlace_pos coarse x) power, roundTo_of_abs_eq (lastPlace_pos coarse y) coarser]

end Digits

end SymbolicKernel

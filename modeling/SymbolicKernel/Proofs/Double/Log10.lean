import Mathlib.Analysis.SpecialFunctions.Log.Base
import Mathlib.Analysis.Complex.ExponentialBounds
import SymbolicKernel.Double.Log10
import SymbolicKernel.Proofs.Double.Arithmetic

/-!
How far the decimal logarithm of a double is from the real one. Main statements: `abs_log10Rat_sub_le`, for the binary
digits that squaring yields, and `log10_finite`, for their rounding to a double.
-/
namespace SymbolicKernel.Double

open Real (logb)

theorem logb_le_logb {a b : ℝ} (pos : 0 < a) (le : a ≤ b) : logb 10 a ≤ logb 10 b :=
  Real.logb_le_logb_of_le (by norm_num) pos le

theorem logb_ten : logb 10 10 = 1 := Real.logb_self_eq_one (by norm_num)

theorem logb_ten_zpow (k : ℤ) : logb 10 (10 ^ k) = k := by
  rw [← Real.rpow_intCast, Real.logb_rpow (by norm_num) (by norm_num)]

theorem logb_one_add_le {u : ℝ} (nonneg : 0 ≤ u) : logb 10 (1 + u) ≤ u := by
  have log : Real.log (1 + u) ≤ u := by
    have bound := Real.log_le_sub_one_of_pos (by linarith : 0 < 1 + u)
    linarith
  have ten : 1 ≤ Real.log 10 := by
    rw [Real.le_log_iff_exp_le (by norm_num)]
    linarith [Real.exp_one_lt_d9]
  rw [Real.logb, div_le_iff₀ (by linarith)]
  exact log.trans (le_mul_of_one_le_right nonneg ten)

theorem natCast_div_mem (n : ℕ) {d : ℕ} (pos : 0 < d) : ((n / d : ℕ) : ℝ) ≤ n / d ∧ (n : ℝ) / d < (n / d : ℕ) + 1 := by
  refine ⟨Nat.cast_div_le, ?_⟩
  rw [div_lt_iff₀ (by exact_mod_cast pos), mul_comm]
  exact_mod_cast Nat.lt_mul_div_succ n pos

section Squaring

-- Numbers between one and ten are counted in parts: `unit` of them make one.
variable {unit y factor : ℕ} {r : ℝ}

/-- Cutting a number that is at least one to the digits kept lowers its logarithm by no more than the last of them. -/
theorem logb_div_mem (some : 0 < unit) (low : unit ≤ y) (le : (y : ℝ) ≤ r) (lt : r < y + 1) :
    logb 10 (y / unit) ≤ logb 10 (r / unit) ∧ logb 10 (r / unit) ≤ logb 10 (y / unit) + 1 / unit := by
  have unitPos : (0 : ℝ) < unit := by exact_mod_cast some
  have least : (unit : ℝ) ≤ y := by exact_mod_cast low
  have pos : (0 : ℝ) < y := unitPos.trans_le least
  refine ⟨logb_le_logb (by positivity) (by gcongr), ?_⟩
  calc logb 10 (r / unit) ≤ logb 10 (y / unit * (1 + 1 / y)) := by
        refine logb_le_logb (div_pos (pos.trans_le le) unitPos) ?_
        rw [div_mul_eq_mul_div, mul_add, mul_one, mul_one_div_cancel pos.ne']
        gcongr
    _ = logb 10 (y / unit) + logb 10 (1 + 1 / y) := Real.logb_mul (by positivity) (by positivity)
    _ ≤ logb 10 (y / unit) + 1 / y := by gcongr; exact logb_one_add_le (by positivity)
    _ ≤ logb 10 (y / unit) + 1 / unit := by gcongr

/-- The square of a number, divided by one or by ten, has twice the logarithm, less none or one. -/
theorem logb_square_mem (some : 0 < unit) (low : unit ≤ y) (pos : 0 < factor)
    (reached : unit ≤ y * y / (unit * factor)) :
    let next := logb 10 ((y * y / (unit * factor) : ℕ) / unit)
    next ≤ 2 * logb 10 (y / unit) - logb 10 factor ∧ 2 * logb 10 (y / unit) - logb 10 factor ≤ next + 1 / unit := by
  have unitPos : (0 : ℝ) < unit := by exact_mod_cast some
  have least : (unit : ℝ) ≤ y := by exact_mod_cast low
  have yPos : (0 : ℝ) < y := unitPos.trans_le least
  obtain ⟨le, lt⟩ := natCast_div_mem (y * y) (Nat.mul_pos some pos)
  have square : logb 10 ((y * y : ℕ) / (unit * factor : ℕ) / unit) = 2 * logb 10 (y / unit) - logb 10 factor := by
    have split : ((y * y : ℕ) : ℝ) / (unit * factor : ℕ) / unit = (y / unit) ^ 2 / factor := by
      push_cast
      field_simp
    rw [split, Real.logb_div (by positivity) (by positivity), Real.logb_pow]
    norm_num
  rw [← square]
  exact logb_div_mem some reached le lt

end Squaring

/-- One step computes a digit and goes on with the square, which is divided by ten if the digit is one. -/
theorem log10Digits_succ (count : ℕ) {y : ℕ} (low : 2 ^ logScale ≤ y) (high : y < 10 * 2 ^ logScale) :
    ∃ factor digit : ℕ, 0 < factor ∧ logb 10 factor = digit ∧ 2 ^ logScale ≤ y * y / (2 ^ logScale * factor) ∧
      y * y / (2 ^ logScale * factor) < 10 * 2 ^ logScale ∧
      log10Digits (count + 1) y = 2 ^ count * digit + log10Digits count (y * y / (2 ^ logScale * factor)) := by
  have some : 0 < 2 ^ logScale := Nat.two_pow_pos _
  rw [log10Digits]
  generalize 2 ^ logScale = unit at low high some ⊢
  have grows : unit * unit ≤ y * y := Nat.mul_le_mul low low
  have within : y * y < 10 * unit * (10 * unit) := Nat.mul_lt_mul'' high high
  split
  · rename_i reached
    have next : y * y / unit / 10 = y * y / (unit * 10) := Nat.div_div_eq_div_mul _ _ _
    refine ⟨10, 1, by decide, by exact_mod_cast logb_ten, ?_, ?_, by rw [next, mul_one]⟩
    · rwa [← next, Nat.le_div_iff_mul_le (by decide), mul_comm]
    · rw [Nat.div_lt_iff_lt_mul (by positivity)]
      linarith
  · rename_i below
    refine ⟨1, 0, by decide, by simp, ?_, ?_, by rw [mul_one, mul_zero, zero_add]⟩
    · rwa [mul_one, Nat.le_div_iff_mul_le some]
    · rw [mul_one]
      exact not_le.mp below

/-- The digits of a logarithm that are computed are those it begins with, but for what is lost by cutting the squares. -/
theorem log10Digits_mem (count : ℕ) {y : ℕ} (low : 2 ^ logScale ≤ y) (high : y < 10 * 2 ^ logScale) :
    log10Digits count y ≤ 2 ^ count * logb 10 (y / (2 ^ logScale : ℕ)) ∧
      2 ^ count * logb 10 (y / (2 ^ logScale : ℕ)) ≤ log10Digits count y + 1 + (2 ^ count - 1) * (1 / (2 ^ logScale : ℕ)) := by
  have some : 0 < 2 ^ logScale := Nat.two_pow_pos _
  induction count generalizing y with
  | zero =>
    generalize 2 ^ logScale = unit at low high some
    have unitPos : (0 : ℝ) < unit := by exact_mod_cast some
    have least : (unit : ℝ) ≤ y := by exact_mod_cast low
    have most : (y : ℝ) ≤ 10 * unit := by exact_mod_cast high.le
    have nonneg : 0 ≤ logb 10 (y / unit) := Real.logb_nonneg (by norm_num) ((one_le_div unitPos).mpr least)
    have le : logb 10 (y / unit) ≤ logb 10 10 :=
      logb_le_logb (div_pos (unitPos.trans_le least) unitPos) ((div_le_iff₀ unitPos).mpr most)
    rw [logb_ten] at le
    simpa [log10Digits] using ⟨nonneg, le⟩
  | succ count ih =>
    obtain ⟨factor, digit, pos, worth, low', high', step⟩ := log10Digits_succ count low high
    obtain ⟨ihLow, ihHigh⟩ := ih low' high'
    obtain ⟨least, most⟩ := logb_square_mem some low pos low'
    rw [step]
    rw [worth] at least most
    generalize log10Digits count (y * y / (2 ^ logScale * factor)) = rest at ihLow ihHigh ⊢
    generalize logb 10 ((y * y / (2 ^ logScale * factor) : ℕ) / (2 ^ logScale : ℕ)) = next at least most ihLow ihHigh
    generalize logb 10 (y / (2 ^ logScale : ℕ)) = log at least most ⊢
    have scale : (0 : ℝ) < 2 ^ count := by positivity
    have scaledLow := mul_le_mul_of_nonneg_left least scale.le
    have scaledHigh := mul_le_mul_of_nonneg_left most scale.le
    rw [pow_succ, Nat.cast_add, Nat.cast_mul, Nat.cast_pow, Nat.cast_ofNat]
    constructor
    · linarith
    · linarith

/-- The middle of an interval that is known up to some slack. -/
theorem abs_middle_sub_le {digits places cut log slack : ℝ} (pos : 0 < places) (fine : 4 * places * slack ≤ 1)
    (digitsLow : digits ≤ places * cut) (digitsHigh : places * cut ≤ digits + 1 + (places - 1) * slack)
    (low : cut ≤ log) (high : log ≤ cut + slack) : |(2 * digits + 1) / (2 * places) - log| ≤ 1 / places := by
  have slackNonneg : 0 ≤ slack := by linarith
  have scaledLow := mul_le_mul_of_nonneg_left low pos.le
  have scaledHigh := mul_le_mul_of_nonneg_left high pos.le
  have scaled : (2 * digits + 1) / (2 * places) - log = (digits + 1 / 2 - places * log) / places := by field_simp
  rw [scaled, abs_div, abs_of_pos pos]
  gcongr
  rw [abs_le]
  constructor <;> linarith

/-- The digits kept while squaring outnumber those computed. -/
theorem four_mul_slack_le : 4 * 2 ^ logDigits * (1 / (2 ^ logScale : ℕ) : ℝ) ≤ 1 := by
  have four : (4 : ℝ) * 2 ^ logDigits = 2 ^ (2 + logDigits) := by
    rw [pow_add]
    norm_num
  have fewer : 2 + logDigits ≤ logScale := by decide
  rw [four, mul_one_div, Nat.cast_pow, Nat.cast_ofNat]
  exact div_le_one_of_le₀ (pow_le_pow_right₀ (by norm_num) fewer) (by positivity)

section Quotient

variable {p q : ℕ}

/-- A quotient divided by the power of ten that is its order of magnitude is between one and ten. -/
theorem scaled_order_mem (ppos : 0 < p) (qpos : 0 < q) :
    let k := Numeral.order 10 p q
    q * 10 ^ k.toNat ≤ p * 10 ^ (-k).toNat ∧ p * 10 ^ (-k).toNat < 10 * (q * 10 ^ k.toNat) ∧
      logb 10 ((p * 10 ^ (-k).toNat : ℕ) / (q * 10 ^ k.toNat : ℕ)) = logb 10 (p / q) - k := by
  intro k
  have divisor : (0 : ℚ) < q := by exact_mod_cast qpos
  have positive : (0 : ℚ) < p / q := by positivity
  have order : k = Int.log 10 ((p : ℚ) / q) := Numeral.order_eq_log (by decide) ppos qpos
  have low : (10 : ℚ) ^ k ≤ p / q := by
    rw [order]
    exact_mod_cast Int.zpow_log_le_self (b := 10) (by decide) positive
  have high : (p : ℚ) / q < 10 ^ (k + 1) := by
    rw [order]
    exact_mod_cast Int.lt_zpow_succ_log_self (b := 10) (by decide) ((p : ℚ) / q)
  have ten : (10 : ℚ) ≠ 0 := by norm_num
  rw [zpow_eq_div ten, div_le_div_iff₀ (by positivity) divisor] at low
  rw [zpow_add₀ ten, zpow_one, zpow_eq_div ten, div_mul_eq_mul_div, div_lt_div_iff₀ divisor (by positivity)] at high
  refine ⟨by exact_mod_cast (mul_comm _ _).trans_le low, ?_, ?_⟩
  · have ordered : (p : ℚ) * 10 ^ (-k).toNat < 10 * (q * 10 ^ k.toNat) := by linarith
    exact_mod_cast ordered
  · have quotient : ((p * 10 ^ (-k).toNat : ℕ) : ℝ) / (q * 10 ^ k.toNat : ℕ) = p / q / 10 ^ k := by
      rw [zpow_eq_div (by norm_num : (10 : ℝ) ≠ 0)]
      push_cast
      field_simp
    have nonzero : (p : ℝ) / q ≠ 0 := by positivity
    rw [quotient, Real.logb_div nonzero (by positivity), logb_ten_zpow]

theorem abs_log10Rat_sub_le (ppos : 0 < p) (qpos : 0 < q) : |(log10Rat p q : ℝ) - logb 10 (p / q)| ≤ 1 / 2 ^ logDigits := by
  obtain ⟨low, high, log⟩ := scaled_order_mem ppos qpos
  have lowPos : 0 < q * 10 ^ (Numeral.order 10 p q).toNat := by positivity
  rw [log10Rat]
  generalize Numeral.order 10 p q = k at low high log lowPos ⊢
  generalize q * 10 ^ k.toNat = bottom at low high log lowPos ⊢
  generalize p * 10 ^ (-k).toNat = top at low high log ⊢
  split
  · rename_i whole
    have none : (top : ℝ) / bottom = 1 := by
      rw [whole]
      exact div_self (by exact_mod_cast lowPos.ne')
    rw [none, Real.logb_one] at log
    have exact : logb 10 (p / q) = k := by linarith
    rw [exact, Rat.cast_intCast, sub_self, abs_zero]
    positivity
  · have some : 0 < 2 ^ logScale := Nat.two_pow_pos _
    have low' : 2 ^ logScale ≤ top * 2 ^ logScale / bottom := by
      rw [Nat.le_div_iff_mul_le lowPos, mul_comm]
      exact Nat.mul_le_mul_right _ low
    have high' : top * 2 ^ logScale / bottom < 10 * 2 ^ logScale := by
      rw [Nat.div_lt_iff_lt_mul lowPos]
      have scaled := Nat.mul_lt_mul_of_pos_right high some
      linarith
    obtain ⟨le, lt⟩ := natCast_div_mem (top * 2 ^ logScale) lowPos
    obtain ⟨least, most⟩ := logb_div_mem some low' le lt
    obtain ⟨digitsLow, digitsHigh⟩ := log10Digits_mem logDigits low' high'
    have cancel : ((top * 2 ^ logScale : ℕ) : ℝ) / bottom / (2 ^ logScale : ℕ) = top / bottom := by
      have unit : ((2 ^ logScale : ℕ) : ℝ) ≠ 0 := by exact_mod_cast some.ne'
      rw [Nat.cast_mul]
      field_simp
    rw [cancel, log] at least most
    have near := abs_middle_sub_le (by positivity) four_mul_slack_le digitsLow digitsHigh least most
    have middle : ((k + mkRat (2 * log10Digits logDigits (top * 2 ^ logScale / bottom) + 1) (2 ^ (logDigits + 1)) : ℚ) : ℝ) =
        k + (2 * log10Digits logDigits (top * 2 ^ logScale / bottom) + 1) / (2 * 2 ^ logDigits) := by
      rw [Rat.mkRat_eq_div, pow_succ']
      push_cast
      rfl
    rw [sub_sub_eq_add_sub, add_comm] at near
    rwa [middle]

end Quotient

theorem logb_two_mem : 1 / 4 ≤ logb 10 2 ∧ logb 10 2 ≤ 1 / 3 := by
  have cube : logb 10 ((2 : ℝ) ^ 3) ≤ logb 10 10 := logb_le_logb (by norm_num) (by norm_num)
  have fourth : logb 10 10 ≤ logb 10 ((2 : ℝ) ^ 4) := logb_le_logb (by norm_num) (by norm_num)
  rw [Real.logb_pow, logb_ten] at cube fourth
  push_cast at cube fourth
  constructor <;> linarith

theorem logb_two_zpow (k : ℤ) : logb 10 ((2 : ℝ) ^ k) = k * logb 10 2 := by
  rw [Real.logb, Real.log_zpow, mul_div_assoc]
  rfl

theorem logb_leastDouble_mem : -358 ≤ logb 10 leastDouble ∧ logb 10 leastDouble ≤ -268 := by
  obtain ⟨low, high⟩ := logb_two_mem
  rw [leastDouble, Rat.cast_zpow, Rat.cast_ofNat, logb_two_zpow]
  push_cast
  constructor <;> linarith

/-- The orders of magnitude of the doubles. -/
theorem abs_logb_le {x : ℚ} (low : leastDouble ≤ x) (high : x ≤ 2 ^ 1024) : |logb 10 x| ≤ 359 := by
  have pos : (0 : ℝ) < leastDouble := by exact_mod_cast leastDouble_pos
  have low : (leastDouble : ℝ) ≤ x := by exact_mod_cast low
  have high : (x : ℝ) ≤ 2 ^ (1024 : ℤ) := by
    have real := (Rat.cast_le (K := ℝ)).mpr high
    rwa [Rat.cast_pow, Rat.cast_ofNat] at real
  have least := logb_le_logb pos low
  have most := logb_le_logb (pos.trans_le low) high
  rw [logb_two_zpow] at most
  push_cast at most
  obtain ⟨twoLow, twoHigh⟩ := logb_two_mem
  rw [abs_le]
  constructor <;> linarith [logb_leastDouble_mem.1]

variable {x : MachineReal}

theorem toRat_pos_iff : 0 < x.toRat ↔ x.code ≠ 0 ∧ x.negative = false := by
  have nonneg := codeValue_nonneg x.code
  rw [MachineReal.toRat_eq_codeValue]
  cases x.negative with
  | false =>
    rw [if_neg Bool.false_ne_true, ← codeValue_zero, codeValue_strictMono.lt_iff_lt]
    simp [Nat.pos_iff_ne_zero]
  | true => simpa using nonneg

theorem abs_logb_toRat_le (pos : 0 < x.toRat) : |logb 10 x.toRat| ≤ 359 := by
  obtain ⟨low, high⟩ := MachineReal.abs_toRat_mem (toRat_pos_iff.mp pos).1
  rw [abs_of_pos pos] at low high
  exact abs_logb_le low high.le

/-- The logarithm of a positive double is finite, and right to about the last place of a double. -/
theorem log10_finite (pos : 0 < x.toRat) :
    ∃ y, log10 (finite x) = finite y ∧ |(y.toRat : ℝ) - logb 10 x.toRat| ≤ (|logb 10 x.toRat| + 1) / 2 ^ 52 := by
  obtain ⟨nonzero, positive⟩ := toRat_pos_iff.mp pos
  have num : 0 < x.toRat.num.natAbs := Int.natAbs_pos.mpr (Rat.num_ne_zero.mpr pos.ne')
  have value : (x.toRat.num.natAbs : ℝ) / x.toRat.den = x.toRat := by
    have quotient := congrArg (fun r : ℚ => (r : ℝ)) (Rational.natAbs_num_div_den x.toRat)
    simp only [Rat.cast_div, Rat.cast_natCast, abs_of_pos pos] at quotient
    exact quotient
  have order := abs_logb_toRat_le pos
  have close := abs_log10Rat_sub_le num x.toRat.den_pos
  rw [value] at close
  rw [log10, if_neg nonzero, positive, if_neg Bool.false_ne_true]
  generalize log10Rat x.toRat.num.natAbs x.toRat.den = log at close ⊢
  generalize logb 10 x.toRat = exact at order close ⊢
  have fine : (1 : ℝ) / 2 ^ logDigits ≤ 1 / 2 ^ 60 := by
    have more : 60 ≤ logDigits := by decide
    gcongr
    norm_num
  have size : |(log : ℝ)| ≤ |exact| + 1 / 2 ^ 60 := by linarith [abs_sub_abs_le_abs_sub (log : ℝ) exact]
  have bounded : |log| + 1 ≤ 2 ^ 100 := by
    have real : |(log : ℝ)| + 1 ≤ 2 ^ 100 := by linarith
    exact_mod_cast real
  obtain ⟨y, made, near⟩ := (Rounds.ofRat log).near (le_add_of_nonneg_right zero_le_one)
    (le_add_of_nonneg_left (abs_nonneg log)) bounded
  have near : |(y.toRat : ℝ) - log| ≤ 2 ^ (-53 : ℤ) * (|(log : ℝ)| + 1) := by
    have real := (Rat.cast_le (K := ℝ)).mpr near
    push_cast at real
    exact real
  have between := abs_sub_le (y.toRat : ℝ) log exact
  have places : (2 : ℝ) ^ (-53 : ℤ) = 1 / 2 ^ 53 := by norm_num
  rw [places] at near
  exact ⟨y, made, by linarith [abs_nonneg exact]⟩

/-- The logarithm of a number that is rounded to a double is off by that of two at most: below the normal doubles, half
of a number can be lost. -/
theorem Rounds.log10 {v : ℚ} {x : Double} (rounds : x.Rounds v) (some : leastDouble < 2 * v) (small : v < overflowBound) :
    x.isZero = false ∧ ∃ y, x.log10 = finite y ∧ |(y.toRat : ℝ) - logb 10 v| ≤ 2 / 5 ∧ |logb 10 v| ≤ 360 := by
  have pos : 0 < v := by linarith [leastDouble_pos]
  have magnitude := abs_of_pos pos
  obtain ⟨z, rfl⟩ := rounds.exists_finite (by rwa [magnitude])
  have kept : ¬ (finite z).isZero = true := by
    rw [rounds.isZero_iff, magnitude, not_le]
    exact some
  have nonzero : z.code ≠ 0 := by simpa [isZero] using kept
  have positive : z.negative = false := by
    obtain ⟨negative, code, _, sign, same⟩ := rounds
    unfold ofCode at same
    split at same
    · cases same
      exact (sign pos.ne').trans (decide_eq_false pos.not_gt)
    · cases same
  obtain ⟨low, high⟩ := rounds.abs_le_two_mul (by rwa [magnitude])
  have zPos := toRat_pos_iff.mpr ⟨nonzero, positive⟩
  rw [magnitude, abs_of_pos zPos] at low high
  have vReal : (0 : ℝ) < v := by exact_mod_cast pos
  have zReal : (0 : ℝ) < z.toRat := by exact_mod_cast zPos
  have low : logb 10 z.toRat ≤ logb 10 (2 * v) := logb_le_logb zReal (by exact_mod_cast low)
  have high : logb 10 v ≤ logb 10 (2 * z.toRat) := logb_le_logb vReal (by exact_mod_cast high)
  rw [Real.logb_mul two_ne_zero vReal.ne'] at low
  rw [Real.logb_mul two_ne_zero zReal.ne'] at high
  have two := logb_two_mem.2
  have order := abs_logb_toRat_le zPos
  obtain ⟨y, made, near⟩ := log10_finite zPos
  have fine : |(y.toRat : ℝ) - logb 10 z.toRat| ≤ 1 / 2 ^ 40 := by linarith
  rw [abs_le] at order fine
  refine ⟨by simpa using kept, y, made, abs_le.mpr ⟨?_, ?_⟩, abs_le.mpr ⟨?_, ?_⟩⟩ <;> linarith

end SymbolicKernel.Double

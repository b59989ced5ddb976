import SymbolicKernel.Proofs.Double.Shortest

/-!
The decimal that a double is written as has the fewest digits that read back, and is the nearest of those with so few.
Main statement: `Decimal.isShortest_of_toRat_eq`.
-/
namespace SymbolicKernel

theorem nearer_left_iff {a b v : ℚ} (less : a < b) : |a - v| ≤ |b - v| ↔ 2 * v ≤ a + b := by
  rw [← sq_le_sq]
  constructor <;> intro <;> nlinarith

theorem nearer_right_iff {a b v : ℚ} (less : a < b) : |b - v| ≤ |a - v| ↔ a + b ≤ 2 * v := by
  rw [← sq_le_sq]
  constructor <;> intro <;> nlinarith

/-- The numbers of which a code is the nearest have no gaps. -/
theorem ClosestCode.between {a b v : ℚ} {code : ℕ} (left : ClosestCode a code) (right : ClosestCode b code)
    (low : a ≤ v) (high : v ≤ b) : ClosestCode v code := by
  constructor
  · intro k
    rcases lt_trichotomy k code with below | rfl | above
    · have less := codeValue_strictMono below
      have near := (nearer_right_iff less).mp (left.le k)
      exact (nearer_right_iff less).mpr (by linarith)
    · exact le_rfl
    · have less := codeValue_strictMono above
      have near := (nearer_left_iff less).mp (right.le k)
      exact (nearer_left_iff less).mpr (by linarith)
  · intro k other tied
    rcases lt_or_gt_of_ne other with below | above
    · have less := codeValue_strictMono below
      have near := (nearer_left_iff less).mp tied
      exact left.even k other ((nearer_left_iff less).mpr (by linarith))
    · have less := codeValue_strictMono above
      have near := (nearer_right_iff less).mp tied
      exact right.even k other ((nearer_right_iff less).mpr (by linarith))

section Grid

variable {code count m : ℕ}

/-- A decimal of so few digits is no finer than the grid, or is below all of it that is as large as the code's value. So
it is not between the neighbours of this value. -/
theorem le_or_le_of_few_digits (nonzero : code ≠ 0) (some : 0 < count) (few : m < 10 ^ count) (k : ℤ) {below : ℕ}
    (high : codeValue code < (below + 1 : ℕ) * 10 ^ lastDigit code count) :
    (m : ℚ) * 10 ^ k ≤ below * 10 ^ lastDigit code count ∨
      (below + 1 : ℕ) * 10 ^ lastDigit code count ≤ (m : ℚ) * 10 ^ k := by
  have unit : (0 : ℚ) < 10 ^ lastDigit code count := zpow_pos (by norm_num) _
  rcases le_or_gt (lastDigit code count) k with coarse | fine
  · obtain ⟨zeros, shift⟩ := Int.le.dest coarse
    have multiple : (m : ℚ) * 10 ^ k = (m * 10 ^ zeros : ℕ) * 10 ^ lastDigit code count := by
      rw [← shift, zpow_add₀ (by norm_num), zpow_natCast]
      push_cast
      ring
    rw [multiple]
    rcases Nat.lt_or_ge below (m * 10 ^ zeros) with more | less
    · right
      gcongr
      exact more
    · left
      gcongr
  · left
    have first : (10 : ℚ) ^ Int.log 10 (codeValue code) = (10 ^ (count - 1) : ℕ) * 10 ^ lastDigit code count := by
      rw [lastDigit, Nat.cast_pow, Nat.cast_ofNat, ← zpow_natCast, ← zpow_add₀ (by norm_num)]
      congr 1
      omega
    have reached : (10 : ℚ) ^ Int.log 10 (codeValue code) ≤ codeValue code := by
      exact_mod_cast Int.zpow_log_le_self (b := 10) (by decide) (codeValue_pos nonzero)
    have onGrid : 10 ^ (count - 1) ≤ below := by
      rw [first] at reached
      have less := lt_of_mul_lt_mul_right (reached.trans_lt high) unit.le
      exact Nat.lt_succ_iff.mp (by exact_mod_cast less)
    calc (m : ℚ) * 10 ^ k ≤ 10 ^ (count : ℤ) * 10 ^ k := by
          have size : (m : ℚ) ≤ 10 ^ (count : ℤ) := by exact_mod_cast few.le
          have scale : (0 : ℚ) < 10 ^ k := zpow_pos (by norm_num) _
          gcongr
      _ = 10 ^ (count + k) := (zpow_add₀ (by norm_num) _ _).symm
      _ ≤ 10 ^ Int.log 10 (codeValue code) := by
          have shorter : count + k ≤ Int.log 10 (codeValue code) := by
            rw [lastDigit] at fine
            omega
          gcongr
          norm_num
      _ = (10 ^ (count - 1) : ℕ) * 10 ^ lastDigit code count := first
      _ ≤ below * 10 ^ lastDigit code count := by gcongr

/-- The neighbours of a code's value on a grid of decimals, and which of them is nearer. -/
theorem decimalGrid_neighbours (nonzero : code ≠ 0) (count : ℕ) :
    ∃ p q : ℕ, decimalGrid code count = (lastDigit code count, p, q) ∧
      (p / q : ℕ) * 10 ^ lastDigit code count ≤ codeValue code ∧
      codeValue code < (p / q + 1 : ℕ) * 10 ^ lastDigit code count ∧
      (2 * (p % q) < q ↔
        2 * codeValue code < (p / q : ℕ) * 10 ^ lastDigit code count + (p / q + 1 : ℕ) * 10 ^ lastDigit code count) := by
  obtain ⟨p, q, grid, pos, quotient⟩ := decimalGrid_spec nonzero count
  have divisor : (0 : ℚ) < q := by exact_mod_cast pos
  have unit : (0 : ℚ) < 10 ^ lastDigit code count := zpow_pos (by norm_num) _
  have parts : (p : ℚ) / q = (p / q : ℕ) + (p % q : ℕ) / q := by
    have whole : (p : ℚ) = q * (p / q : ℕ) + (p % q : ℕ) := by exact_mod_cast (Nat.div_add_mod p q).symm
    rw [div_eq_iff divisor.ne', add_mul, div_mul_cancel₀ _ divisor.ne', mul_comm ((p / q : ℕ) : ℚ)]
    exact whole
  have nonneg : (0 : ℚ) ≤ (p % q : ℕ) / q := by positivity
  have less : ((p % q : ℕ) : ℚ) / q < 1 := by
    rw [div_lt_one divisor]
    exact_mod_cast Nat.mod_lt p pos
  have half : 2 * (p % q) < q ↔ 2 * (((p % q : ℕ) : ℚ) / q) < 1 := by
    rw [← mul_div_assoc, div_lt_one divisor]
    exact_mod_cast Iff.rfl
  have value : codeValue code = ((p / q : ℕ) + (p % q : ℕ) / q) * 10 ^ lastDigit code count := by
    rw [← parts, quotient, div_mul_cancel₀ _ unit.ne']
  refine ⟨p, q, grid, ?_, ?_, ?_⟩
  · rw [value]
    gcongr
    linarith
  · rw [value]
    gcongr
    push_cast
    linarith
  · rw [half, value, ← mul_assoc, ← add_mul, mul_lt_mul_iff_of_pos_right unit]
    push_cast
    constructor <;> intro <;> linarith

/-- If any decimal of so few digits reads back, the search finds one that is as near. It only looks at the neighbours of
the code's value on the grid, but these are between the value and all other decimals of so few digits. -/
theorem decimalOfLength_nearest (nonzero : code ≠ 0) (finite : code < infinityCode) (some : 0 < count)
    (few : m < 10 ^ count) {k : ℤ} (closest : ClosestCode (m * 10 ^ k) code) :
    ∃ n, decimalOfLength code count = .some (n, lastDigit code count) ∧
      |n * 10 ^ lastDigit code count - codeValue code| ≤ |m * 10 ^ k - codeValue code| := by
  obtain ⟨p, q, grid, low, high, nearer⟩ := decimalGrid_neighbours nonzero count
  have own := ClosestCode.self code
  have apart := low.trans_lt high
  rw [decimalOfLength, grid]
  simp only
  -- the neighbour on the side of the given decimal is between it and the value, so it reads back as well
  rcases le_or_le_of_few_digits nonzero some few k high with lower | upper
  · have readsBack := (nearestDecimalCode_eq_iff finite _ _).mpr (closest.between own lower low)
    have near : |(p / q : ℕ) * 10 ^ lastDigit code count - codeValue code| ≤ |m * 10 ^ k - codeValue code| := by
      rw [abs_of_nonpos (by linarith), abs_of_nonpos (by linarith)]
      linarith
    by_cases chosen : 2 * (p % q) < q ∨ ¬ nearestDecimalCode (p / q + 1) (lastDigit code count) = code
    · rw [if_pos ⟨readsBack, chosen⟩]
      exact ⟨_, rfl, near⟩
    · obtain ⟨farther, reads⟩ := not_or.mp chosen
      rw [if_neg (fun both => chosen both.2), if_pos (not_not.mp reads)]
      refine ⟨_, rfl, le_trans ?_ near⟩
      exact (nearer_right_iff apart).mpr (not_lt.mp (nearer.not.mp farther))
  · have readsBack := (nearestDecimalCode_eq_iff finite _ _).mpr (own.between closest high.le upper)
    have near : |(p / q + 1 : ℕ) * 10 ^ lastDigit code count - codeValue code| ≤ |m * 10 ^ k - codeValue code| := by
      rw [abs_of_nonneg (by linarith), abs_of_nonneg (by linarith)]
      linarith
    by_cases chosen : nearestDecimalCode (p / q) (lastDigit code count) = code ∧
        (2 * (p % q) < q ∨ ¬ nearestDecimalCode (p / q + 1) (lastDigit code count) = code)
    · have closer := chosen.2.resolve_right (not_not.mpr readsBack)
      rw [if_pos chosen]
      refine ⟨_, rfl, le_trans ?_ near⟩
      exact (nearer_left_iff apart).mpr (nearer.mp closer).le
    · rw [if_neg chosen, if_pos readsBack]
      exact ⟨_, rfl, near⟩

/-- No decimal that reads back has fewer digits than the one that is written, and none of as few is nearer. -/
theorem shortestDecimal_fewest (finite : code < infinityCode) {k : ℤ} (closest : ClosestCode (m * 10 ^ k) code) :
    Numeral.length 10 (shortestDecimal code).1 ≤ Numeral.length 10 m ∧
      (Numeral.length 10 m ≤ Numeral.length 10 (shortestDecimal code).1 →
        |(shortestDecimal code).1 * 10 ^ (shortestDecimal code).2 - codeValue code| ≤ |m * 10 ^ k - codeValue code|) := by
  have ten : 2 ≤ 10 := by decide
  have size : m < 10 ^ Numeral.length 10 m := (Numeral.length_le_iff ten).mp le_rfl
  rcases eq_or_ne code 0 with rfl | nonzero
  · have zero : shortestDecimal 0 = (0, 0) := rfl
    refine ⟨Nat.zero_le _, fun _ => ?_⟩
    rw [zero, codeValue_zero, Nat.cast_zero, zero_mul, sub_self, abs_zero]
    exact abs_nonneg _
  obtain ⟨length, least, _, ends, passed⟩ := shortestFrom_first nonzero finite (show 16 + 1 = 17 from rfl)
  obtain ⟨_, found, bound⟩ := decimalOfLength_spec nonzero finite ends
  have few := shortestDecimal_lt nonzero least found bound
  have minimal : length ≤ Numeral.length 10 m := by
    by_contra less
    have some : 0 < Numeral.length 10 m := by
      rw [Nat.pos_iff_ne_zero]
      intro none
      rw [none, pow_zero, Nat.lt_one_iff] at size
      rw [size, Nat.cast_zero, zero_mul] at closest
      exact nonzero closest.code_eq_zero
    obtain ⟨n, earlier, _⟩ := decimalOfLength_nearest nonzero finite some size closest
    rw [passed _ some (not_le.mp less)] at earlier
    cases earlier
  have within : Numeral.length 10 (shortestDecimal code).1 ≤ length := (Numeral.length_le_iff ten).mpr few
  refine ⟨within.trans minimal, fun short => ?_⟩
  have fits : m < 10 ^ length := (Numeral.length_le_iff ten).mp (short.trans within)
  obtain ⟨n, same, near⟩ := decimalOfLength_nearest nonzero finite least fits closest
  rw [ends, Option.some_inj] at same
  rwa [shortestDecimal_value nonzero, same]

end Grid

namespace Double

/-- A number that rounds to a double has the code of this double for its nearest. -/
theorem Rounds.closestCode_of_equal {v : ℚ} {y : Double} {x : MachineReal} (rounds : Rounds v y)
    (equal : y.Equal (finite x)) : ClosestCode |v| x.code := by
  obtain ⟨negative, code, closest, _, rfl⟩ := rounds
  unfold ofCode at equal
  split at equal
  case isTrue below =>
    have magnitude := x.abs_toRat
    rw [← MachineReal.sameValue_iff.mp equal, MachineReal.abs_toRat] at magnitude
    have same : min code infinityCode = x.code := codeValue_strictMono.injective magnitude
    have finite : code = x.code := by omega
    rwa [← finite]
  case isFalse => exact equal.elim

end Double

namespace Decimal

/-- The decimal is how the double is best written: it reads back, it has the fewest digits of all decimals that do, and
of those with as few it is the nearest. -/
structure IsShortest (d : Decimal) (x : MachineReal) : Prop where
  readsBack : d.toDouble.Equal (.finite x)
  fewest : ∀ other : Decimal, other.toDouble.Equal (.finite x) → d.digits ≤ other.digits
  nearest : ∀ other : Decimal, other.toDouble.Equal (.finite x) → other.digits ≤ d.digits →
    |d.toRat - x.toRat| ≤ |other.toRat - x.toRat|

variable {d : Decimal} {x : MachineReal}

theorem closestCode_of_toDouble (reads : d.toDouble.Equal (.finite x)) :
    ClosestCode (d.significand.natAbs * 10 ^ d.exponent) x.code := by
  rw [← abs_toRat]
  exact d.toDouble_rounds.closestCode_of_equal reads

/-- Whatever has the value that a double is written with is its shortest decimal. -/
theorem isShortest_of_toRat_eq
    (value : d.toRat = Numeral.withSign x.negative (shortestDecimal x.code).1 * 10 ^ (shortestDecimal x.code).2) :
    d.IsShortest x := by
  have scale : (0 : ℚ) < 10 ^ (shortestDecimal x.code).2 := zpow_pos (by norm_num) _
  have magnitude : |d.toRat| = (shortestDecimal x.code).1 * 10 ^ (shortestDecimal x.code).2 := by
    rw [value, Numeral.abs_withSign_mul scale]
  have sign : d.toRat ≠ 0 → x.negative = decide (d.toRat < 0) := by
    intro nonzero
    have some : (shortestDecimal x.code).1 ≠ 0 := by
      intro none
      rw [none, Nat.cast_zero, zero_mul, abs_eq_zero] at magnitude
      exact nonzero magnitude
    rw [value, Bool.eq_iff_iff, decide_eq_true_iff, Numeral.withSign_mul_neg_iff scale some]
  have few : d.digits ≤ Numeral.length 10 (shortestDecimal x.code).1 := by
    have short := digits_le_of_toRat_eq value
    rwa [Numeral.natAbs_withSign] at short
  have closest := (shortestDecimal_spec x.code_lt).1
  rw [← magnitude] at closest
  refine ⟨d.toDouble_rounds.equal (.of_closest closest sign), fun other reads => ?_, fun other reads short => ?_⟩
  · exact few.trans (shortestDecimal_fewest x.code_lt (closestCode_of_toDouble reads)).1
  · have near := (shortestDecimal_fewest x.code_lt (closestCode_of_toDouble reads)).2 (short.trans few)
    rw [← magnitude, ← abs_toRat] at near
    calc |d.toRat - x.toRat| = |codeValue x.code - abs d.toRat| := by rw [abs_sub_comm, MachineReal.abs_toRat_sub sign]
      _ ≤ |codeValue x.code - abs other.toRat| := by rwa [abs_sub_comm, abs_sub_comm _ (abs other.toRat)]
      _ ≤ |x.toRat - other.toRat| := x.abs_codeValue_sub_le _
      _ = |other.toRat - x.toRat| := abs_sub_comm _ _

end Decimal

end SymbolicKernel

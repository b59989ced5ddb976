import SymbolicKernel.Proofs.Double.Rounded

/-!
Arithmetic on doubles: when a result is finite, how far it is from the exact one, and when it is zero.
Main statements: `Rounds.add` and `Rounds.mul`, an operation rounds its exact result once.
-/
namespace SymbolicKernel

theorem codeValue_one : codeValue 1 = leastDouble := by
  rw [codeValue, codeUnits_of_lt (by decide), Nat.cast_one, one_mul]

/-- Whole numbers of up to 53 binary digits are doubles. -/
theorem exists_codeValue_eq {n : ℕ} (small : n < 2 ^ 53) : ∃ code < infinityCode, codeValue code = n := by
  rcases Nat.eq_zero_or_pos n with rfl | pos
  · exact ⟨0, by decide, by rw [codeValue_zero, Nat.cast_zero]⟩
  have bits : n.log2 < 53 := (Nat.log2_lt pos.ne').mpr small
  have low : 2 ^ 52 ≤ n * 2 ^ (52 - n.log2) := by
    calc 2 ^ 52 = 2 ^ n.log2 * 2 ^ (52 - n.log2) := by rw [← pow_add]; congr 1; omega
      _ ≤ n * 2 ^ (52 - n.log2) := Nat.mul_le_mul_right _ (Nat.log2_self_le pos.ne')
  have high : n * 2 ^ (52 - n.log2) < 2 ^ 53 := by
    calc n * 2 ^ (52 - n.log2) < 2 ^ (n.log2 + 1) * 2 ^ (52 - n.log2) := by gcongr; exact Nat.lt_log2_self
      _ = 2 ^ 53 := by rw [← pow_add]; congr 1; omega
  refine ⟨n * 2 ^ (52 - n.log2) + (1022 + n.log2) * 2 ^ 52, ?_, ?_⟩
  · rw [infinityCode]
    omega
  · have exponent : (52 - n.log2) + (1022 + n.log2) = 1074 := by omega
    have cancel : ((1074 : ℕ) : ℤ) + -1074 = 0 := rfl
    rw [codeValue, codeUnits_add high.le (.inl low), mul_assoc, ← pow_add, exponent, leastDouble, Nat.cast_mul,
      Nat.cast_pow, Nat.cast_ofNat, mul_assoc, ← zpow_natCast, ← zpow_add₀ (by norm_num), cancel, zpow_zero, mul_one]

namespace ClosestCode

variable {v : ℚ} {code : ℕ}

theorem self (code : ℕ) : ClosestCode (codeValue code) code := by
  apply of_two_mul_lt
  intro k other
  rw [sub_self, abs_zero, mul_zero, abs_pos, sub_ne_zero]
  exact codeValue_strictMono.injective.ne other

/-- Up to half of the least double, and at this half too, numbers are lost. -/
theorem eq_zero_iff (closest : ClosestCode v code) (nonneg : 0 ≤ v) : code = 0 ↔ 2 * v ≤ leastDouble := by
  have least := codeValue_one
  have pos := leastDouble_pos
  have nearOne := closest.le 1
  rw [least] at nearOne
  constructor
  · rintro rfl
    rw [codeValue_zero, zero_sub, abs_neg, abs_of_nonneg nonneg] at nearOne
    rcases le_abs'.mp nearOne with below | above <;> linarith
  · intro small
    by_contra nonzero
    have nearZero := closest.le 0
    have even := closest.even 0 (Ne.symm nonzero)
    have atLeast : codeValue 1 ≤ codeValue code := codeValue_strictMono.monotone (Nat.pos_of_ne_zero nonzero)
    rw [codeValue_zero, zero_sub, abs_neg, abs_of_nonneg nonneg, abs_of_nonneg (by linarith)] at nearZero even
    have equal : codeValue code = codeValue 1 := by linarith
    have one : code = 1 := codeValue_strictMono.injective equal
    rw [one] at even
    exact absurd (even (by linarith)) (by decide)

/-- A number that is not lost keeps its order of magnitude. -/
theorem le_two_mul (closest : ClosestCode v code) (nonneg : 0 ≤ v) (nonzero : code ≠ 0) :
    codeValue code ≤ 2 * v ∧ v ≤ 2 * codeValue code := by
  have value := codeValue_nonneg code
  constructor
  · have nearZero := closest.le 0
    rw [codeValue_zero, zero_sub, abs_neg, abs_of_nonneg nonneg, abs_le] at nearZero
    linarith
  · by_contra far
    have next := closest.le (code + 1)
    have units : 2 ^ (code / 2 ^ 52 - 1) ≤ codeUnits code := by
      have some : 0 < codeMantissa code := by
        unfold codeMantissa
        split <;> omega
      rw [codeUnits_eq_mul]
      exact Nat.le_mul_of_pos_left _ some
    have spacing : codeSpacing code ≤ codeValue code := by
      rw [codeSpacing_eq, codeValue]
      exact mul_le_mul_of_nonneg_right (by exact_mod_cast units) leastDouble_pos.le
    have pos := codeSpacing_pos code
    rw [codeValue_succ, abs_of_nonpos (by linarith), abs_of_nonpos (by linarith)] at next
    linarith

end ClosestCode

/-- A double is the rounding of its own value. -/
theorem MachineReal.rounds_toRat (x : MachineReal) : (Double.finite x).Rounds x.toRat := by
  apply Double.Rounds.of_closest
  · rw [x.abs_toRat]
    exact .self x.code
  · exact MachineReal.negative_eq_decide

theorem MachineReal.abs_toRat_lt (x : MachineReal) : |x.toRat| < overflowBound :=
  x.rounds_toRat.isNearest.1

theorem MachineReal.abs_toRat_mem {x : MachineReal} (nonzero : x.code ≠ 0) :
    leastDouble ≤ |x.toRat| ∧ |x.toRat| < 2 ^ 1024 := by
  rw [MachineReal.abs_toRat, ← codeValue_one, ← codeValue_infinityCode]
  exact ⟨codeValue_strictMono.monotone (Nat.pos_of_ne_zero nonzero), codeValue_strictMono x.code_lt⟩

/-- The magnitude of the largest double. -/
theorem MachineReal.abs_toRat_le (x : MachineReal) : |x.toRat| ≤ overflowBound - 2 ^ 970 := by
  have last : x.code ≤ infinityCode - 1 := Nat.le_sub_one_of_lt x.code_lt
  rw [MachineReal.abs_toRat, overflowBound, sub_sub, ← two_mul, ← codeValue_last]
  exact codeValue_strictMono.monotone last

namespace Double

variable {v : ℚ} {x : Double} {y z : MachineReal}

theorem Rounds.exists_finite (rounds : x.Rounds v) (small : |v| < overflowBound) : ∃ y, x = finite y := by
  have nearest := rounds.isNearest
  cases x with
  | finite y => exact ⟨y, rfl⟩
  | infinite negative => exact absurd nearest.1 (not_le.mpr small)
  | nan => exact nearest.elim

theorem Rounds.eq_infinite (rounds : x.Rounds v) (large : overflowBound ≤ |v|) : x = infinite (decide (v < 0)) := by
  have nearest := rounds.isNearest
  cases x with
  | finite y => exact absurd large (not_le.mpr nearest.1)
  | infinite negative => rw [nearest.2]
  | nan => exact nearest.elim

theorem Rounds.abs_sub_le (rounds : (finite y).Rounds v) : |y.toRat - v| ≤ 2 ^ (-53 : ℤ) * max |v| leastNormal := by
  have equal := rounds.equal (Rounds.ofRat v)
  cases nearest : Double.ofRat v with
  | finite z =>
    rw [nearest] at equal
    rw [MachineReal.sameValue_iff.mp equal]
    exact abs_ofRat_sub_le_mul nearest
  | infinite negative =>
    rw [nearest] at equal
    exact equal.elim
  | nan =>
    rw [nearest] at equal
    exact equal.elim

theorem Rounds.finite?_eq_none_iff (rounds : x.Rounds v) : x.finite? = none ↔ overflowBound ≤ |v| := by
  constructor
  · intro past
    by_contra small
    obtain ⟨y, rfl⟩ := rounds.exists_finite (not_le.mp small)
    cases past
  · intro large
    rw [rounds.eq_infinite large]
    rfl

theorem two_pow_le_overflowBound : (2 : ℚ) ^ 1023 ≤ overflowBound := by
  have less : (2 : ℚ) ^ 970 ≤ 2 ^ 1023 := pow_le_pow_right₀ (by norm_num) (by norm_num)
  have twice : (2 : ℚ) ^ 1024 = 2 * 2 ^ 1023 := pow_succ' 2 1023
  rw [overflowBound, twice, two_mul, add_sub_assoc]
  exact le_add_of_nonneg_right (sub_nonneg.mpr less)

/-- A bound that is far from that of the doubles. -/
theorem Rounds.near {bound : ℚ} (rounds : x.Rounds v) (le : |v| ≤ bound) (one : 1 ≤ bound) (small : bound ≤ 2 ^ 100) :
    ∃ y, x = finite y ∧ |y.toRat - v| ≤ 2 ^ (-53 : ℤ) * bound := by
  have moderate : (2 : ℚ) ^ 100 < 2 ^ 1023 := pow_lt_pow_right₀ (by norm_num) (by norm_num)
  obtain ⟨y, rfl⟩ := rounds.exists_finite ((le.trans small).trans_lt (moderate.trans_le two_pow_le_overflowBound))
  refine ⟨y, rfl, rounds.abs_sub_le.trans ?_⟩
  gcongr
  exact max_le le (leastNormal_le_one.trans one)

theorem Rounds.abs (rounds : x.Rounds v) : x.abs.Rounds |v| := by
  obtain ⟨negative, code, closest, _, rfl⟩ := rounds
  refine ⟨false, code, by rwa [abs_abs], ?_, ?_⟩
  · intro _
    exact (decide_eq_false (not_lt.mpr (abs_nonneg v))).symm
  · unfold ofCode
    split <;> rfl

theorem Rounds.isZero_iff (rounds : x.Rounds v) : x.isZero = true ↔ 2 * |v| ≤ leastDouble := by
  obtain ⟨negative, code, closest, _, rfl⟩ := rounds
  rw [← closest.eq_zero_iff (abs_nonneg v)]
  have zero : min code infinityCode = 0 ↔ code = 0 := by
    have pos : 0 < infinityCode := by decide
    omega
  unfold ofCode
  split
  · simp [isZero, zero]
  · rename_i large
    have nonzero : code ≠ 0 := by
      rintro rfl
      exact large (by decide)
    simp [isZero, nonzero]

/-- What is not lost keeps its order of magnitude. -/
theorem Rounds.abs_le_two_mul (rounds : (finite y).Rounds v) (nonzero : leastDouble < 2 * |v|) :
    |y.toRat| ≤ 2 * |v| ∧ |v| ≤ 2 * |y.toRat| := by
  obtain ⟨negative, code, closest, _, same⟩ := rounds
  have some : code ≠ 0 := fun zero => absurd ((closest.eq_zero_iff (abs_nonneg v)).mp zero) (not_le.mpr nonzero)
  unfold ofCode at same
  split at same
  · rename_i small
    have kept : min code infinityCode = code := min_eq_left (by omega)
    cases same
    rw [MachineReal.abs_toRat]
    simpa only [kept] using closest.le_two_mul (abs_nonneg v) some
  · cases same

theorem ofInt_natCast {n : ℕ} (small : n < 2 ^ 53) :
    ∃ y : MachineReal, Double.ofInt n = finite y ∧ y.toRat = n := by
  obtain ⟨code, finite, value⟩ := exists_codeValue_eq small
  have rounds := Rounds.ofNat n
  have closest : ClosestCode |(n : ℚ)| code := by
    rw [Nat.abs_cast, ← value]
    exact ClosestCode.self code
  have sign : (n : ℚ) ≠ 0 → false = decide ((n : ℚ) < 0) := fun _ => (decide_eq_false (Nat.cast_nonneg n).not_gt).symm
  obtain ⟨y, made, same⟩ := rounds.sameValue_of_closest (y := ⟨false, code, finite⟩) closest sign
  refine ⟨y, made, ?_⟩
  rw [MachineReal.sameValue_iff.mp same, MachineReal.toRat_eq_codeValue, if_neg Bool.false_ne_true, value]

theorem Rounds.add (y z : MachineReal) : ((finite y).add (finite z)).Rounds (y.toRat + z.toRat) := by
  simp only [Double.add]
  split
  · rename_i zero
    refine ⟨y.negative && z.negative, 0, ?_, fun nonzero => absurd zero nonzero, rfl⟩
    rw [zero, abs_zero]
    exact .zero
  · exact Rounds.ofRat _

/-- A sum with what is no finite double is none. -/
theorem finite?_add_of_none (past : x.finite? = none) (other : Double) : (x.add other).finite? = none := by
  cases x with
  | finite y => cases past
  | infinite negative =>
    cases other with
    | finite y => rfl
    | infinite negative' =>
      rw [Double.add]
      split <;> rfl
    | nan => rfl
  | nan => cases other <;> rfl

/-- A sum with a double that is far below the spacing of the largest ones. -/
theorem exists_add_finite (y : MachineReal) (small : |z.toRat| < 2 ^ 970) :
    ∃ k, (finite y).add (finite z) = finite k := by
  apply (Rounds.add y z).exists_finite
  calc |y.toRat + z.toRat| ≤ |y.toRat| + |z.toRat| := abs_add_le _ _
    _ < overflowBound - 2 ^ 970 + 2 ^ 970 := add_lt_add_of_le_of_lt y.abs_toRat_le small
    _ = overflowBound := sub_add_cancel _ _

theorem Rounds.mul (y z : MachineReal) : ((finite y).mul (finite z)).Rounds (y.toRat * z.toRat) := by
  obtain ⟨code, closest, nearest⟩ := nearestCode_eq_min (y.toRat * z.toRat).num.natAbs (y.toRat * z.toRat).den_pos
  rw [Rational.natAbs_num_div_den] at closest
  refine ⟨y.negative != z.negative, code, closest, ?_, by simp only [Double.mul, nearest]⟩
  intro nonzero
  obtain ⟨left, right⟩ := mul_ne_zero_iff.mp nonzero
  rw [MachineReal.negative_eq_decide left, MachineReal.negative_eq_decide right]
  rcases lt_or_gt_of_ne left with neg | pos
  · rcases lt_or_gt_of_ne right with neg' | pos'
    · rw [decide_eq_true neg, decide_eq_true neg', decide_eq_false (mul_pos_of_neg_of_neg neg neg').not_gt]
      rfl
    · rw [decide_eq_true neg, decide_eq_false pos'.not_gt, decide_eq_true (mul_neg_of_neg_of_pos neg pos')]
      rfl
  · rcases lt_or_gt_of_ne right with neg' | pos'
    · rw [decide_eq_false pos.not_gt, decide_eq_true neg', decide_eq_true (mul_neg_of_pos_of_neg pos neg')]
      rfl
    · rw [decide_eq_false pos.not_gt, decide_eq_false pos'.not_gt, decide_eq_false (mul_pos pos pos').not_gt]
      rfl

end Double

end SymbolicKernel

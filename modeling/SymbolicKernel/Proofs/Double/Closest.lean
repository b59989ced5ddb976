import SymbolicKernel.Proofs.Double.Nearest

/-!
The double nearest to a number: no other double is nearer, and where another one is as near the code is even.
Codes go on past the finite doubles with the same spacing, so a number that is too large has a nearest code too,
and this code stands for infinity.
-/
namespace SymbolicKernel

section Quotient

variable {tie : Tie} {n d j : ℕ}

theorem one_le_abs_sub_add_abs_sub {i j : ℕ} (apart : i ≠ j) (x : ℚ) : 1 ≤ |(i : ℚ) - x| + |(j : ℚ) - x| := by
  have whole : (1 : ℤ) ≤ |(i : ℤ) - j| := Int.one_le_abs (by omega)
  have cast : (1 : ℚ) ≤ |(i : ℚ) - j| := by exact_mod_cast whole
  have between := abs_sub_le (i : ℚ) x j
  rw [abs_sub_comm x] at between
  exact cast.trans between

/-- No whole number is nearer to a quotient than the one it is rounded to. -/
theorem abs_roundDiv_sub_le_abs (tie : Tie) (n j : ℕ) {d : ℕ} (pos : 0 < d) :
    |(roundDiv tie n d : ℚ) - n / d| ≤ |(j : ℚ) - n / d| := by
  have near := abs_roundDiv_sub_le tie n pos
  by_cases same : j = roundDiv tie n d
  · rw [same]
  · have apart := one_le_abs_sub_add_abs_sub same (n / d)
    linarith

theorem two_mul_mod_eq_of_abs_roundDiv_sub (pos : 0 < d) (halfway : |(roundDiv tie n d : ℚ) - n / d| = 1 / 2) :
    2 * (n % d) = d := by
  have divisor : (0 : ℚ) < d := by exact_mod_cast pos
  have whole : (n : ℚ) = d * (n / d : ℕ) + (n % d : ℕ) := by exact_mod_cast (Nat.div_add_mod n d).symm
  have rest : ((n % d : ℕ) : ℚ) < d := by exact_mod_cast Nat.mod_lt n pos
  have quotient : (n : ℚ) / d = (n / d : ℕ) + (n % d : ℕ) / d := by
    rw [whole]
    field_simp
  have nonneg : (0 : ℚ) ≤ (n % d : ℕ) / d := by positivity
  have below : ((n % d : ℕ) : ℚ) / d < 1 := (div_lt_one divisor).mpr rest
  have half : ((n % d : ℕ) : ℚ) / d = 1 / 2 := by
    unfold roundDiv at halfway
    split at halfway
    · rw [quotient, abs_of_nonneg (by push_cast; linarith)] at halfway
      push_cast at halfway
      linarith
    · rw [quotient, abs_of_nonpos (by linarith)] at halfway
      linarith
  rw [div_eq_iff divisor.ne'] at half
  have twice : (2 * (n % d : ℕ) : ℚ) = d := by linarith
  exact_mod_cast twice

/-- A quotient as near to another whole number is halfway between two, and is sent to the even one. -/
theorem even_roundDiv_toEven (pos : 0 < d) (other : j ≠ roundDiv .toEven n d)
    (near : |(j : ℚ) - n / d| ≤ |(roundDiv .toEven n d : ℚ) - n / d|) : Even (roundDiv .toEven n d) := by
  have half := abs_roundDiv_sub_le .toEven n pos
  have apart := one_le_abs_sub_add_abs_sub other (n / d)
  have halfway : |(roundDiv .toEven n d : ℚ) - n / d| = 1 / 2 := by linarith
  have tied := two_mul_mod_eq_of_abs_roundDiv_sub pos halfway
  simp only [roundDiv, Tie.roundsUp, tied, lt_irrefl, decide_false, beq_self_eq_true, Bool.true_and, Bool.false_or,
    beq_iff_eq]
  split
  · rename_i odd
    exact Nat.even_add_one.mpr (Nat.not_even_iff.mpr odd)
  · rename_i even
    exact Nat.even_iff.mpr (by omega)

end Quotient

/-- The value of a code, one past the finite doubles included. -/
def codeValue (code : ℕ) : ℚ := codeUnits code * leastDouble

theorem codeValue_strictMono : StrictMono codeValue := by
  intro a b less
  have units : (codeUnits a : ℚ) < codeUnits b := by exact_mod_cast codeUnits_strictMono less
  exact mul_lt_mul_of_pos_right units leastDouble_pos

theorem codeValue_zero : codeValue 0 = 0 := by simp [codeValue, codeUnits_zero]

theorem codeValue_nonneg (code : ℕ) : 0 ≤ codeValue code :=
  mul_nonneg (Nat.cast_nonneg _) leastDouble_pos.le

/-- The distance from a code's value to that of the next code. -/
def codeSpacing (code : ℕ) : ℚ := 2 ^ ((code / 2 ^ 52 - 1 : ℕ) + (-1074 : ℤ))

theorem codeSpacing_eq (code : ℕ) : codeSpacing code = (2 ^ (code / 2 ^ 52 - 1) : ℕ) * leastDouble := by
  rw [codeSpacing, leastDouble, zpow_add₀ (by norm_num), zpow_natCast, Nat.cast_pow, Nat.cast_ofNat]

theorem codeSpacing_pos (code : ℕ) : 0 < codeSpacing code := zpow_pos (by norm_num) _

theorem codeValue_succ (code : ℕ) : codeValue (code + 1) = codeValue code + codeSpacing code := by
  rw [codeValue, codeUnits_succ, Nat.cast_add, add_mul, codeSpacing_eq, codeValue]

theorem codeValue_add_spacing_le (code : ℕ) : codeValue code + codeSpacing code ≤ 2 ^ 53 * codeSpacing code := by
  have mantissa : (codeMantissa code + 1 : ℚ) ≤ 2 ^ 53 := by exact_mod_cast codeMantissa_lt code
  have value : codeValue code = codeMantissa code * codeSpacing code := by
    rw [codeValue, codeUnits_eq_mul, codeSpacing_eq, Nat.cast_mul, mul_assoc]
  calc codeValue code + codeSpacing code = (codeMantissa code + 1) * codeSpacing code := by rw [value]; ring
    _ ≤ 2 ^ 53 * codeSpacing code := mul_le_mul_of_nonneg_right mantissa (codeSpacing_pos code).le

/-- Neighbouring values are apart by no less than the 53rd binary place, also below a power of two. -/
theorem codeValue_le_mul_abs_sub {code k : ℕ} (other : k ≠ code) :
    codeValue code ≤ 2 ^ 53 * |codeValue k - codeValue code| := by
  rcases lt_or_gt_of_ne other with below | above
  · obtain ⟨before, rfl⟩ : ∃ before, code = before + 1 := ⟨code - 1, by omega⟩
    have least := codeValue_strictMono.monotone (Nat.lt_succ_iff.mp below)
    have most := codeValue_add_spacing_le before
    have next := codeValue_succ before
    have gap : codeSpacing before ≤ |codeValue k - codeValue (before + 1)| := by
      rw [abs_sub_comm]
      exact (by linarith : _ ≤ codeValue (before + 1) - codeValue k).trans (le_abs_self _)
    linarith
  · have least := codeValue_strictMono.monotone (Nat.succ_le_of_lt above)
    have most := codeValue_add_spacing_le code
    have spacing := codeSpacing_pos code
    have next := codeValue_succ code
    have gap : codeSpacing code ≤ |codeValue k - codeValue code| :=
      (by linarith : _ ≤ codeValue k - codeValue code).trans (le_abs_self _)
    linarith

/-- The first code of a block is a power of two. -/
theorem codeValue_block (k : ℕ) : codeValue (2 ^ 52 + k * 2 ^ 52) = 2 ^ ((k : ℤ) - 1022) := by
  have exponent : (k : ℤ) - 1022 = (52 : ℕ) + ((k : ℤ) + -1074) := by omega
  rw [codeValue, codeUnits_add (by decide) (.inl le_rfl), leastDouble, exponent, zpow_add₀ (by norm_num),
    zpow_add₀ (by norm_num), zpow_natCast, zpow_natCast, Nat.cast_mul, Nat.cast_pow, Nat.cast_pow, Nat.cast_ofNat,
    mul_assoc]

theorem MachineReal.toRat_eq_codeValue (x : MachineReal) :
    x.toRat = if x.negative then -codeValue x.code else codeValue x.code := by
  rw [toRat_eq, codeValue]
  cases x.negative <;> simp [Numeral.withSign]

theorem MachineReal.abs_toRat (x : MachineReal) : |x.toRat| = codeValue x.code := by
  rw [toRat_eq_codeValue]
  split
  · rw [abs_neg, abs_of_nonneg (codeValue_nonneg _)]
  · exact abs_of_nonneg (codeValue_nonneg _)

theorem MachineReal.toRat_eq_zero_iff {x : MachineReal} : x.toRat = 0 ↔ x.code = 0 := by
  rw [← abs_eq_zero, abs_toRat, ← codeValue_zero, codeValue_strictMono.injective.eq_iff]

theorem MachineReal.negative_eq_decide {x : MachineReal} (nonzero : x.toRat ≠ 0) :
    x.negative = decide (x.toRat < 0) := by
  have nonneg := codeValue_nonneg x.code
  rw [toRat_eq_codeValue] at nonzero ⊢
  cases negative : x.negative with
  | false => simpa [negative] using nonneg
  | true =>
    have pos : codeValue x.code ≠ 0 := by simpa [negative] using nonzero
    simpa using nonneg.lt_of_ne pos.symm

/-- A code that no other is nearer to `v` than, and that is even if another one is as near. -/
structure ClosestCode (v : ℚ) (code : ℕ) : Prop where
  le : ∀ k, |codeValue code - v| ≤ |codeValue k - v|
  even : ∀ k, k ≠ code → |codeValue k - v| ≤ |codeValue code - v| → Even code

namespace ClosestCode

variable {v : ℚ} {code k : ℕ}

/-- Between two even codes there is an odd one, so two codes equally near to a number cannot both be even. -/
theorem unique (first : ClosestCode v code) (second : ClosestCode v k) : code = k := by
  wlog less : code < k generalizing code k
  · rcases Nat.lt_or_ge k code with greater | le
    · exact (this second first greater).symm
    · omega
  have evens := first.even k less.ne' (second.le code)
  have evens' := second.even code less.ne (first.le k)
  have room : code + 1 < k := by
    rw [Nat.even_iff] at evens evens'
    omega
  have low := codeValue_strictMono (Nat.lt_succ_self code)
  have high := codeValue_strictMono room
  have level : |codeValue code - v| = |codeValue k - v| := le_antisymm (first.le k) (second.le code)
  have nearest := first.le (code + 1)
  rcases abs_eq_abs.mp level with same | opposite
  · linarith
  · have middle : |codeValue (code + 1) - v| < codeValue k - v := by
      rw [abs_lt]
      constructor <;> linarith
    rw [opposite, abs_neg, abs_of_nonneg (by linarith)] at nearest
    linarith

/-- A number that is nearer to a code than half the way to any other has this code as its nearest. -/
theorem of_two_mul_lt (near : ∀ k, k ≠ code → 2 * |codeValue code - v| < |codeValue k - codeValue code|) :
    ClosestCode v code := by
  have nearer : ∀ k, k ≠ code → |codeValue code - v| < |codeValue k - v| := by
    intro k other
    have between := abs_sub_le (codeValue k) v (codeValue code)
    rw [abs_sub_comm v] at between
    linarith [near k other]
  constructor
  · intro k
    by_cases same : k = code
    · rw [same]
    · exact (nearer k same).le
  · intro k other le
    exact absurd (nearer k other) (not_lt.mpr le)

/-- An error below the 54th binary place does not lead to another code. -/
theorem of_relative_error (near : 2 ^ 54 * |codeValue code - v| < codeValue code) : ClosestCode v code := by
  apply of_two_mul_lt
  intro k other
  have gap := codeValue_le_mul_abs_sub other
  linarith

end ClosestCode

section Nearest

variable {p q : ℕ}

/-- The codes whose values are multiples of the unit in the last place of the doubles about `p / q`. -/
def OnGrid (p q code : ℕ) : Prop :=
  ((lastExponent (p / q) + 1074).toNat + 1) * 2 ^ 52 ≤ code ∨ (lastExponent (p / q) + 1074).toNat = 0

theorem OnGrid.codeValue_eq {code : ℕ} (onGrid : OnGrid p q code) :
    ∃ j : ℕ, codeValue code = j * 2 ^ lastExponent (p / q) := by
  have least : -1022 - 52 ≤ lastExponent (p / q) := sub_le_sub_right (le_max_right _ _) 52
  unfold OnGrid at onGrid
  generalize lastExponent ((p : ℚ) / q) = e at onGrid least ⊢
  have block : (e + 1074).toNat ≤ code / 2 ^ 52 - 1 := by omega
  have split : codeUnits code =
      codeMantissa code * 2 ^ (code / 2 ^ 52 - 1 - (e + 1074).toNat) * 2 ^ (e + 1074).toNat := by
    rw [codeUnits_eq_mul, mul_assoc, ← pow_add, Nat.sub_add_cancel block]
  have shift : (((e + 1074).toNat : ℕ) : ℤ) = e + 1074 := by omega
  refine ⟨codeMantissa code * 2 ^ (code / 2 ^ 52 - 1 - (e + 1074).toNat), ?_⟩
  rw [codeValue, split, Nat.cast_mul, mul_assoc, leastDouble, Nat.cast_pow, Nat.cast_ofNat, ← zpow_natCast (2 : ℚ),
    shift, ← zpow_add₀ (by norm_num), add_assoc, add_neg_cancel, add_zero]

/-- Codes off the grid do not reach the power of two that `p / q` has reached. -/
theorem codeValue_lt_of_not_onGrid {code : ℕ} (offGrid : ¬ OnGrid p q code) :
    codeValue code < 2 ^ 52 * 2 ^ lastExponent (p / q) := by
  have least : -1022 - 52 ≤ lastExponent (p / q) := sub_le_sub_right (le_max_right _ _) 52
  unfold OnGrid at offGrid
  generalize lastExponent ((p : ℚ) / q) = e at offGrid least ⊢
  have below : code < 2 ^ 52 + (e + 1074).toNat * 2 ^ 52 := by omega
  have exponent : ((e + 1074).toNat : ℤ) - 1022 = (52 : ℕ) + e := by omega
  calc codeValue code < codeValue (2 ^ 52 + (e + 1074).toNat * 2 ^ 52) := codeValue_strictMono below
    _ = 2 ^ 52 * 2 ^ e := by rw [codeValue_block, exponent, zpow_add₀ (by norm_num), zpow_natCast]

theorem abs_mul_unit_sub (p q j : ℕ) : |j * 2 ^ lastExponent (p / q) - (p : ℚ) / q| =
    |(j : ℚ) - p / q / 2 ^ lastExponent (p / q)| * 2 ^ lastExponent (p / q) := by
  have unit := lastExponent_pos ((p : ℚ) / q)
  conv_rhs => rw [← abs_of_pos unit, ← abs_mul]
  rw [abs_of_pos unit, sub_mul, div_mul_cancel₀ _ unit.ne']

theorem codeValue_unboundedCode (ppos : 0 < p) (qpos : 0 < q) :
    codeValue (unboundedCode p q) = nearestMantissa p q * 2 ^ lastExponent (p / q) :=
  codeUnits_unboundedCode ppos qpos

theorem abs_unboundedCode_sub_le_mul (ppos : 0 < p) (qpos : 0 < q) (j : ℕ) :
    |codeValue (unboundedCode p q) - p / q| ≤ |(j : ℚ) * 2 ^ lastExponent (p / q) - p / q| := by
  have divisor : 0 < q * 2 ^ (lastExponent (p / q)).toNat := by positivity
  have nearest := abs_roundDiv_sub_le_abs .toEven (p * 2 ^ (-lastExponent (p / q)).toNat) j divisor
  rw [scaled_div p qpos] at nearest
  rw [codeValue_unboundedCode ppos qpos, abs_mul_unit_sub, abs_mul_unit_sub]
  exact mul_le_mul_of_nonneg_right nearest (lastExponent_pos _).le

/-- Codes off the grid are farther away than the first code on it. -/
theorem abs_unboundedCode_sub_lt {code : ℕ} (ppos : 0 < p) (qpos : 0 < q) (offGrid : ¬ OnGrid p q code) :
    |codeValue (unboundedCode p q) - p / q| < |codeValue code - p / q| := by
  have less := codeValue_lt_of_not_onGrid offGrid
  have normal : -1022 ≤ Int.log 2 |(p : ℚ) / q| := by
    rw [OnGrid, lastExponent] at offGrid
    omega
  have reached := le_abs_div (by positivity) normal
  rw [abs_div_natCast, le_div_iff₀ (lastExponent_pos _)] at reached
  have first := abs_unboundedCode_sub_le_mul ppos qpos (2 ^ 52)
  rw [Nat.cast_pow, Nat.cast_ofNat, abs_sub_comm _ ((p : ℚ) / q), abs_sub_comm _ ((p : ℚ) / q),
    abs_of_nonneg (sub_nonneg.mpr reached)] at first
  rw [abs_sub_comm, abs_sub_comm (codeValue code), abs_of_pos (sub_pos.mpr (less.trans_le reached))]
  linarith

/-- Rounding the mantissa to a whole number is rounding among all codes. -/
theorem closestCode_unboundedCode (ppos : 0 < p) (qpos : 0 < q) : ClosestCode (p / q) (unboundedCode p q) := by
  have unit := lastExponent_pos ((p : ℚ) / q)
  have own := codeValue_unboundedCode ppos qpos
  constructor
  · intro k
    by_cases onGrid : OnGrid p q k
    · obtain ⟨j, multiple⟩ := onGrid.codeValue_eq
      rw [multiple]
      exact abs_unboundedCode_sub_le_mul ppos qpos j
    · exact (abs_unboundedCode_sub_lt ppos qpos onGrid).le
  · intro k other near
    by_cases onGrid : OnGrid p q k
    · obtain ⟨j, multiple⟩ := onGrid.codeValue_eq
      have apart : j ≠ nearestMantissa p q := by
        rintro rfl
        exact other (codeValue_strictMono.injective (multiple.trans own.symm))
      rw [own, multiple, abs_mul_unit_sub, abs_mul_unit_sub, mul_le_mul_iff_of_pos_right unit, ← scaled_div p qpos]
        at near
      have mantissa : Even (nearestMantissa p q) := even_roundDiv_toEven (by positivity) apart near
      exact mantissa.add (Even.mul_left (by decide) _)
    · exact absurd near (not_le.mpr (abs_unboundedCode_sub_lt ppos qpos onGrid))

theorem closestCode_zero {v : ℚ} (nonneg : 0 ≤ v) (small : 2 * v < leastDouble) : ClosestCode v 0 := by
  apply ClosestCode.of_two_mul_lt
  intro k other
  have units : (1 : ℚ) ≤ codeUnits k := by
    have more := codeUnits_strictMono (Nat.pos_of_ne_zero other)
    rw [codeUnits_zero] at more
    exact_mod_cast more
  have least : leastDouble ≤ codeValue k := le_mul_of_one_le_left leastDouble_pos.le units
  rw [codeValue_zero, zero_sub, abs_neg, abs_of_nonneg nonneg, sub_zero, abs_of_nonneg (codeValue_nonneg k)]
  exact small.trans_le least

theorem ClosestCode.zero : ClosestCode 0 0 :=
  closestCode_zero le_rfl (by rw [mul_zero]; exact leastDouble_pos)

/-- The search for the nearest code stops at infinity. -/
theorem nearestCode_eq_min (p : ℕ) (qpos : 0 < q) :
    ∃ code, ClosestCode (p / q) code ∧ nearestCode p q = min code infinityCode := by
  rcases Nat.eq_zero_or_pos p with rfl | ppos
  · refine ⟨0, ?_, by simp [nearestCode]⟩
    rw [Nat.cast_zero, zero_div]
    exact .zero
  · exact ⟨unboundedCode p q, closestCode_unboundedCode ppos qpos, nearestCode_eq ppos qpos⟩

theorem exists_closestCode {v : ℚ} (nonneg : 0 ≤ v) : ∃ code, ClosestCode v code := by
  obtain ⟨code, closest, -⟩ := nearestCode_eq_min v.num.natAbs v.den_pos
  rw [Rational.natAbs_num_div_den, abs_of_nonneg nonneg] at closest
  exact ⟨code, closest⟩

theorem codeValue_infinityCode : codeValue infinityCode = 2 ^ 1024 := by
  have block : infinityCode = 2 ^ 52 + 2046 * 2 ^ 52 := by decide
  rw [block, codeValue_block]
  exact zpow_natCast 2 1024

theorem ClosestCode.infinityCode_le {v : ℚ} {code : ℕ} (closest : ClosestCode v code) (large : 2 ^ 1024 ≤ v) :
    infinityCode ≤ code := by
  by_contra below
  have less := codeValue_strictMono (not_le.mp below)
  have near := closest.le infinityCode
  rw [← codeValue_infinityCode] at large
  rw [abs_of_nonpos (by linarith), abs_of_nonpos (by linarith)] at near
  linarith

theorem natCast_mul_zpow_eq_div (n : ℕ) (exponent : ℤ) :
    (n : ℚ) * 10 ^ exponent = (n * 10 ^ exponent.toNat : ℕ) / (10 ^ (-exponent).toNat : ℕ) := by
  rw [zpow_eq_div (by norm_num : (10 : ℚ) ≠ 0)]
  push_cast
  ring

theorem two_mul_zpow_lt_leastDouble : 2 * (10 : ℚ) ^ (-331 : ℤ) < leastDouble := by
  have power : (2 : ℚ) ^ (215 * 5) < 10 ^ (66 * 5 + 1) := by
    calc (2 : ℚ) ^ (215 * 5) = (2 ^ 215) ^ 5 := pow_mul _ _ _
      _ ≤ (10 ^ 66) ^ 5 := pow_le_pow_left₀ (by positivity) (by norm_num) 5
      _ = 10 ^ (66 * 5) := (pow_mul _ _ _).symm
      _ < 10 ^ (66 * 5 + 1) := pow_lt_pow_right₀ (by norm_num) (Nat.lt_succ_self _)
  calc 2 * (10 : ℚ) ^ (-331 : ℤ) = 2 * ((10 : ℚ) ^ (66 * 5 + 1))⁻¹ := by rw [← zpow_natCast, ← zpow_neg]; rfl
    _ < 2 * ((2 : ℚ) ^ (215 * 5))⁻¹ := by gcongr
    _ = 2 ^ (1 : ℤ) * 2 ^ (-1075 : ℤ) := by rw [← zpow_natCast, ← zpow_neg, zpow_one]; rfl
    _ = leastDouble := (zpow_add₀ (by norm_num) _ _).symm

theorem two_pow_le_zpow : (2 : ℚ) ^ 1024 ≤ 10 ^ (310 : ℤ) := by
  calc (2 : ℚ) ^ 1024 ≤ 2 ^ (205 * 5) := pow_le_pow_right₀ (by norm_num) (by norm_num)
    _ = (2 ^ 205) ^ 5 := pow_mul _ _ _
    _ ≤ (10 ^ 62) ^ 5 := pow_le_pow_left₀ (by positivity) (by norm_num) 5
    _ = 10 ^ (62 * 5) := (pow_mul _ _ _).symm
    _ = 10 ^ (310 : ℤ) := (zpow_natCast _ _).symm

/-- Orders of magnitude far from those of the doubles may be told apart without the power of ten. -/
theorem nearestDecimalCode_eq_min (n : ℕ) (exponent : ℤ) :
    ∃ code, ClosestCode (n * 10 ^ exponent) code ∧ nearestDecimalCode n exponent = min code infinityCode := by
  have scale : (0 : ℚ) < 10 ^ exponent := zpow_pos (by norm_num) _
  rw [nearestDecimalCode]
  split
  · rename_i small
    refine ⟨0, closestCode_zero (by positivity) ?_, rfl⟩
    rcases small with rfl | small
    · rw [Nat.cast_zero, zero_mul, mul_zero]
      exact leastDouble_pos
    · have bound := Numeral.lt_zpow_length (b := 10) (by decide) n
      calc 2 * ((n : ℚ) * 10 ^ exponent)
          ≤ 2 * (10 ^ (Numeral.length 10 n : ℤ) * 10 ^ exponent) := by
            have le : (n : ℚ) ≤ 10 ^ (Numeral.length 10 n : ℤ) := by exact_mod_cast bound.le
            gcongr
        _ = 2 * 10 ^ (Numeral.length 10 n + exponent) := by rw [zpow_add₀ (by norm_num)]
        _ ≤ 2 * 10 ^ (-331 : ℤ) := by
            have order : Numeral.length 10 n + exponent ≤ -331 := by omega
            gcongr
            norm_num
        _ < leastDouble := two_mul_zpow_lt_leastDouble
  · rename_i nonzero
    rw [not_or] at nonzero
    split
    · rename_i large
      obtain ⟨code, closest⟩ := exists_closestCode (v := n * 10 ^ exponent) (by positivity)
      refine ⟨code, closest, (min_eq_right (closest.infinityCode_le ?_)).symm⟩
      have bound := Numeral.zpow_length_le (b := 10) (by decide) nonzero.1
      calc (2 : ℚ) ^ 1024 ≤ 10 ^ (310 : ℤ) := two_pow_le_zpow
        _ ≤ 10 ^ ((Numeral.length 10 n : ℤ) - 1 + exponent) := by
            have order : 310 ≤ (Numeral.length 10 n : ℤ) - 1 + exponent := by omega
            gcongr
            norm_num
        _ = 10 ^ ((Numeral.length 10 n : ℤ) - 1) * 10 ^ exponent := zpow_add₀ (by norm_num) _ _
        _ ≤ n * 10 ^ exponent := by
            have le : (10 : ℚ) ^ ((Numeral.length 10 n : ℤ) - 1) ≤ n := by exact_mod_cast bound
            gcongr
    · rw [natCast_mul_zpow_eq_div]
      exact nearestCode_eq_min _ (by positivity)

end Nearest

end SymbolicKernel

import SymbolicKernel.Double.Shortest
import SymbolicKernel.Proofs.Decimal.Digits
import SymbolicKernel.Proofs.Double.Arithmetic

/-!
The decimal that a double is written as. Main statement: `shortestDecimal_spec`, it reads back, it has no more than
seventeen digits, and it is written without places behind the point exactly when the double is a whole number.
-/
namespace SymbolicKernel

section Whole

variable {code : ℕ}

/-- Doubles whose last place is not behind the point are whole numbers, and the others are small. -/
theorem exists_natCast_or_codeValue_lt (code : ℕ) : (∃ m : ℕ, codeValue code = m) ∨ codeValue code < 2 ^ 52 := by
  rw [codeValue, codeUnits_mul_leastDouble]
  rcases le_or_gt 0 (codeExponent code) with whole | places
  · left
    obtain ⟨k, exponent⟩ := Int.eq_ofNat_of_zero_le whole
    refine ⟨codeMantissa code * 2 ^ k, ?_⟩
    rw [exponent, zpow_natCast, Nat.cast_mul, Nat.cast_pow, Nat.cast_ofNat]
  · right
    have mantissa : (codeMantissa code : ℚ) < 2 ^ 53 := by exact_mod_cast codeMantissa_lt code
    have half : (2 : ℚ) ^ codeExponent code ≤ 2 ^ (-1 : ℤ) := zpow_le_zpow_right₀ (by norm_num) (by omega)
    calc (codeMantissa code : ℚ) * 2 ^ codeExponent code ≤ codeMantissa code * 2 ^ (-1 : ℤ) := by gcongr
      _ < 2 ^ 53 * 2 ^ (-1 : ℤ) := by gcongr
      _ = 2 ^ 52 := by norm_num

/-- The double nearest to a whole number is a whole number. -/
theorem ClosestCode.exists_natCast {n : ℕ} (closest : ClosestCode n code) : ∃ m : ℕ, codeValue code = m := by
  rcases exists_natCast_or_codeValue_lt code with whole | small
  · exact whole
  · have below : n < 2 ^ 53 := by
      by_contra large
      have large : (2 : ℚ) ^ 53 ≤ n := by exact_mod_cast not_lt.mp large
      obtain ⟨other, _, value⟩ := exists_codeValue_eq (n := 2 ^ 53 - 1) (by norm_num)
      have near := closest.le other
      rw [value, abs_of_nonpos (by linarith), abs_of_nonpos (by push_cast; linarith)] at near
      push_cast at near
      linarith
    obtain ⟨own, _, value⟩ := exists_codeValue_eq below
    have exact := ClosestCode.self own
    rw [value] at exact
    rw [closest.unique exact]
    exact ⟨n, value⟩

end Whole

section Search

variable {code count n : ℕ} {unit : ℤ}

/-- The exponent of the last of `count` digits of a code's value. -/
def lastDigit (code count : ℕ) : ℤ := Int.log 10 (codeValue code) + 1 - count

theorem zpow_lastDigit (code count : ℕ) : (10 : ℚ) ^ lastDigit code count = lastPlace count (codeValue code) := by
  rw [lastPlace, abs_of_nonneg (codeValue_nonneg code), lastDigit]
  congr 1
  ring

theorem codeValue_pos (nonzero : code ≠ 0) : 0 < codeValue code := by
  rw [← codeValue_zero]
  exact codeValue_strictMono (Nat.pos_of_ne_zero nonzero)

theorem decimalGrid_spec (nonzero : code ≠ 0) (count : ℕ) :
    ∃ p q : ℕ, decimalGrid code count = (lastDigit code count, p, q) ∧ 0 < q ∧
      (p : ℚ) / q = codeValue code / 10 ^ lastDigit code count := by
  have quotient : codeValue code =
      (codeMantissa code * 2 ^ (codeExponent code).toNat : ℕ) / (2 ^ (-codeExponent code).toNat : ℕ) := by
    rw [codeValue, codeUnits_mul_leastDouble, zpow_eq_div (by norm_num : (2 : ℚ) ≠ 0)]
    push_cast
    ring
  have below : 0 < 2 ^ (-codeExponent code).toNat := by positivity
  have above : 0 < codeMantissa code * 2 ^ (codeExponent code).toNat := by
    have value := codeValue_pos nonzero
    rw [quotient] at value
    by_contra none
    rw [Nat.eq_zero_of_not_pos none, Nat.cast_zero, zero_div] at value
    exact lt_irrefl _ value
  have unit : Numeral.order 10 (codeMantissa code * 2 ^ (codeExponent code).toNat) (2 ^ (-codeExponent code).toNat) + 1 -
      count = lastDigit code count := by
    rw [Numeral.order_eq_log (by decide) above below, ← quotient, lastDigit]
  refine ⟨codeMantissa code * 2 ^ (codeExponent code).toNat * 10 ^ (-lastDigit code count).toNat,
    2 ^ (-codeExponent code).toNat * 10 ^ (lastDigit code count).toNat, by simp only [decimalGrid, unit], by positivity, ?_⟩
  rw [quotient, zpow_eq_div (by norm_num : (10 : ℚ) ≠ 0)]
  push_cast
  field_simp

theorem codeValue_lt_pow (code count : ℕ) : codeValue code / 10 ^ lastDigit code count < 10 ^ count := by
  have log : codeValue code < 10 ^ (Int.log 10 (codeValue code) + 1) := by
    exact_mod_cast Int.lt_zpow_succ_log_self (b := 10) (by decide) (codeValue code)
  have unit : (0 : ℚ) < 10 ^ lastDigit code count := zpow_pos (by norm_num) _
  rw [div_lt_iff₀ unit, ← zpow_natCast, ← zpow_add₀ (by norm_num), lastDigit, add_sub_cancel]
  exact log

theorem nearestDecimalCode_eq_iff (finite : code < infinityCode) (n : ℕ) (unit : ℤ) :
    nearestDecimalCode n unit = code ↔ ClosestCode (n * 10 ^ unit) code := by
  obtain ⟨other, closest, nearest⟩ := nearestDecimalCode_eq_min n unit
  rw [nearest]
  constructor
  · intro same
    have own : other = code := by omega
    rwa [← own]
  · intro closest'
    rw [closest.unique closest', min_eq_left finite.le]

theorem decimalOfLength_spec (nonzero : code ≠ 0) (finite : code < infinityCode)
    (found : decimalOfLength code count = some (n, unit)) :
    unit = lastDigit code count ∧ ClosestCode (n * 10 ^ unit) code ∧ n ≤ 10 ^ count := by
  obtain ⟨p, q, grid, pos, quotient⟩ := decimalGrid_spec nonzero count
  have divisor : (0 : ℚ) < q := by exact_mod_cast pos
  have size := codeValue_lt_pow code count
  rw [← quotient, div_lt_iff₀ divisor] at size
  have below : p / q < 10 ^ count := (Nat.div_lt_iff_lt_mul pos).mpr (by exact_mod_cast size)
  rw [decimalOfLength, grid] at found
  simp only at found
  split at found
  · rename_i lower
    cases found
    exact ⟨rfl, (nearestDecimalCode_eq_iff finite _ _).mp lower.1, below.le⟩
  · split at found
    · rename_i upper
      cases found
      exact ⟨rfl, (nearestDecimalCode_eq_iff finite _ _).mp upper, below⟩
    · cases found

/-- A whole number is found when the digits reach the point, if not before. -/
theorem isSome_decimalOfLength {m : ℕ} (nonzero : code ≠ 0) (finite : code < infinityCode) (whole : codeValue code = m)
    (reached : lastDigit code count = 0) : (decimalOfLength code count).isSome = true := by
  obtain ⟨p, q, grid, pos, quotient⟩ := decimalGrid_spec nonzero count
  have divisor : (q : ℚ) ≠ 0 := by exact_mod_cast pos.ne'
  rw [reached, zpow_zero, div_one, whole, div_eq_iff divisor] at quotient
  have multiple : p = m * q := by exact_mod_cast quotient
  have exact : nearestDecimalCode m 0 = code := by
    rw [nearestDecimalCode_eq_iff finite, zpow_zero, mul_one, ← whole]
    exact ClosestCode.self code
  have lower : nearestDecimalCode (m * q / q) 0 = code ∧
      (2 * (m * q % q) < q ∨ ¬ nearestDecimalCode (m * q / q + 1) 0 = code) := by
    rw [Nat.mul_div_cancel _ pos, Nat.mul_mod_left]
    exact ⟨exact, .inl pos⟩
  rw [decimalOfLength, grid, reached, multiple]
  simp only [if_pos lower, Option.isSome_some]

/-- Seventeen digits are finer than the doubles are apart. -/
theorem closestCode_of_seventeen (nonzero : code ≠ 0) {p q : ℕ} (pos : 0 < q)
    (quotient : (p : ℚ) / q = codeValue code / 10 ^ lastDigit code 17) :
    ClosestCode (roundDiv .awayFromZero p q * 10 ^ lastDigit code 17) code := by
  have value := codeValue_pos nonzero
  have unit : (0 : ℚ) < 10 ^ lastDigit code 17 := zpow_pos (by norm_num) _
  have place := pow_mul_lastPlace_le 17 value.ne'
  rw [← zpow_lastDigit, abs_of_pos value] at place
  have near := abs_roundDiv_sub_le .awayFromZero p pos
  have off : |codeValue code - roundDiv .awayFromZero p q * 10 ^ lastDigit code 17| ≤ 1 / 2 * 10 ^ lastDigit code 17 := by
    rw [quotient] at near
    calc |codeValue code - roundDiv .awayFromZero p q * 10 ^ lastDigit code 17|
        = |(roundDiv .awayFromZero p q : ℚ) - codeValue code / 10 ^ lastDigit code 17| * 10 ^ lastDigit code 17 := by
          conv_rhs => rw [← abs_of_pos unit, ← abs_mul]
          rw [abs_of_pos unit, sub_mul, div_mul_cancel₀ _ unit.ne', abs_sub_comm]
      _ ≤ 1 / 2 * 10 ^ lastDigit code 17 := by gcongr
  apply ClosestCode.of_relative_error
  linarith

/-- At seventeen digits there always is a decimal, that to which the value is rounded. -/
theorem decimalOfLength_seventeen (nonzero : code ≠ 0) (finite : code < infinityCode) :
    decimalOfLength code 17 = some (shortestFrom code 0 17) := by
  obtain ⟨p, q, grid, pos, quotient⟩ := decimalGrid_spec nonzero 17
  have readsBack : nearestDecimalCode (roundDiv .awayFromZero p q) (lastDigit code 17) = code :=
    (nearestDecimalCode_eq_iff finite _ _).mpr (closestCode_of_seventeen nonzero pos quotient)
  rw [decimalOfLength, shortestFrom, grid]
  simp only
  by_cases up : q ≤ 2 * (p % q)
  · have value : roundDiv .awayFromZero p q = p / q + 1 := by simp [roundDiv, Tie.roundsUp, up]
    rw [value] at readsBack ⊢
    have passed : ¬ (2 * (p % q) < q ∨ ¬ nearestDecimalCode (p / q + 1) (lastDigit code 17) = code) := by
      rw [not_or, not_not]
      exact ⟨not_lt.mpr up, readsBack⟩
    rw [if_neg (fun below => passed below.2), if_pos readsBack]
  · have value : roundDiv .awayFromZero p q = p / q := by simp [roundDiv, Tie.roundsUp, up]
    rw [value] at readsBack ⊢
    exact if_pos ⟨readsBack, .inl (not_le.mp up)⟩

/-- The search is by the number of digits: each step passes over one length, and it ends at the first that has a
decimal. -/
theorem shortestFrom_first (nonzero : code ≠ 0) (finite : code < infinityCode) {tries : ℕ} (room : tries + count = 17) :
    ∃ length, count ≤ length ∧ length ≤ 17 ∧ decimalOfLength code length = some (shortestFrom code tries count) ∧
      ∀ shorter, count ≤ shorter → shorter < length → decimalOfLength code shorter = none := by
  induction tries generalizing count with
  | zero =>
    obtain rfl : count = 17 := by omega
    refine ⟨17, le_rfl, le_rfl, decimalOfLength_seventeen nonzero finite, ?_⟩
    intro shorter least less
    omega
  | succ tries ih =>
    rw [shortestFrom]
    cases found : decimalOfLength code count with
    | some decimal =>
      refine ⟨count, le_rfl, by omega, found, ?_⟩
      intro shorter least less
      omega
    | none =>
      obtain ⟨length, least, most, ends, passed⟩ := ih (show tries + (count + 1) = 17 by omega)
      refine ⟨length, by omega, most, ends, ?_⟩
      intro shorter low less
      rcases low.eq_or_lt with rfl | above
      · exact found
      · exact passed shorter above less

/-- The decimal found reads back, and the digits of a whole number do not go past the point. -/
theorem shortestFrom_spec (nonzero : code ≠ 0) (finite : code < infinityCode) {tries : ℕ} (room : tries + count = 17) :
    ∃ length ≤ 17, (shortestFrom code tries count).2 = lastDigit code length ∧
      ClosestCode ((shortestFrom code tries count).1 * 10 ^ (shortestFrom code tries count).2) code ∧
      (shortestFrom code tries count).1 ≤ 10 ^ length ∧
      ((∃ m : ℕ, codeValue code = m) → 0 ≤ lastDigit code count → 0 ≤ lastDigit code length) := by
  obtain ⟨length, least, most, ends, passed⟩ := shortestFrom_first nonzero finite room
  obtain ⟨unit, closest, size⟩ := decimalOfLength_spec nonzero finite ends
  refine ⟨length, most, unit, closest, size, ?_⟩
  rintro ⟨m, whole⟩ behind
  by_contra past
  obtain ⟨shorter, low, less, reached⟩ : ∃ shorter, count ≤ shorter ∧ shorter < length ∧ lastDigit code shorter = 0 := by
    simp only [lastDigit] at behind past ⊢
    exact ⟨(Int.log 10 (codeValue code) + 1).toNat, by omega, by omega, by omega⟩
  have found := isSome_decimalOfLength nonzero finite whole reached
  rw [passed shorter low less] at found
  cases found

end Search

theorem log_codeValue_ge {code : ℕ} (nonzero : code ≠ 0) : -331 ≤ Int.log 10 (codeValue code) := by
  have least : leastDouble ≤ codeValue code := by
    rw [← codeValue_one]
    exact codeValue_strictMono.monotone (Nat.pos_of_ne_zero nonzero)
  have power : (0 : ℚ) < 10 ^ (-331 : ℤ) := zpow_pos (by norm_num) _
  have bound := two_mul_zpow_lt_leastDouble
  rw [← Int.zpow_le_iff_le_log (by decide) (codeValue_pos nonzero), Nat.cast_ofNat]
  generalize (10 : ℚ) ^ (-331 : ℤ) = tiny at power bound ⊢
  linarith

/-- Only trailing zeros are taken off the decimal that the search ends with. -/
theorem shortestDecimal_value {code : ℕ} (nonzero : code ≠ 0) :
    ((shortestDecimal code).1 : ℚ) * 10 ^ (shortestDecimal code).2 =
      (shortestFrom code 16 1).1 * 10 ^ (shortestFrom code 16 1).2 := by
  rw [shortestDecimal, if_neg nonzero]
  simp only
  rcases eq_or_ne (shortestFrom code 16 1).1 0 with none | some
  · rw [none, Numeral.stripZeros_zero, Nat.cast_zero, zero_mul, zero_mul]
  · have stripped := (Numeral.stripZeros_spec some).1
    generalize Numeral.stripZeros (shortestFrom code 16 1).1 = kept at stripped ⊢
    rw [← stripped, add_comm, zpow_add₀ (by norm_num), zpow_natCast]
    push_cast
    ring

theorem shortestDecimal_lt {code length : ℕ} (nonzero : code ≠ 0) (pos : 0 < length)
    (closest : ClosestCode ((shortestFrom code 16 1).1 * 10 ^ (shortestFrom code 16 1).2) code)
    (bound : (shortestFrom code 16 1).1 ≤ 10 ^ length) : (shortestDecimal code).1 < 10 ^ length := by
  have some : (shortestFrom code 16 1).1 ≠ 0 := by
    intro none
    rw [none, Nat.cast_zero, zero_mul] at closest
    exact nonzero closest.code_eq_zero
  rw [shortestDecimal, if_neg nonzero]
  exact Numeral.stripZeros_lt some pos bound

/-- The shortest decimal of a double reads back as it and has no more than seventeen digits. Its last digit is not behind
the point exactly for whole numbers. -/
theorem shortestDecimal_spec {code : ℕ} (finite : code < infinityCode) :
    ClosestCode ((shortestDecimal code).1 * 10 ^ (shortestDecimal code).2) code ∧
      (shortestDecimal code).1 < 10 ^ 17 ∧ -347 ≤ (shortestDecimal code).2 ∧
      (0 ≤ (shortestDecimal code).2 ↔ ∃ m : ℕ, codeValue code = m) := by
  rcases eq_or_ne code 0 with rfl | nonzero
  · have zero : shortestDecimal 0 = (0, 0) := rfl
    rw [zero, Nat.cast_zero, zero_mul]
    refine ⟨?_, by norm_num, by norm_num, iff_of_true le_rfl ⟨0, codeValue_zero.trans Nat.cast_zero.symm⟩⟩
    exact .zero
  obtain ⟨length, most, unit, closest, size, before⟩ := shortestFrom_spec nonzero finite (show 16 + 1 = 17 from rfl)
  have same := shortestDecimal_value nonzero
  have few := shortestDecimal_lt nonzero (by decide : 0 < 17) closest (size.trans (Nat.pow_le_pow_right (by decide) most))
  have split : (shortestDecimal code).2 =
      (shortestFrom code 16 1).2 + (Numeral.stripZeros (shortestFrom code 16 1).1).2 := by
    rw [shortestDecimal, if_neg nonzero]
  have low := log_codeValue_ge nonzero
  rw [← same] at closest
  refine ⟨closest, few, by simp only [lastDigit] at unit; omega, ?_⟩
  constructor
  · intro nonneg
    obtain ⟨e, exponent⟩ := Int.eq_ofNat_of_zero_le nonneg
    rw [exponent, zpow_natCast] at closest
    apply ClosestCode.exists_natCast (n := (shortestDecimal code).1 * 10 ^ e)
    exact_mod_cast closest
  · rintro ⟨m, whole⟩
    have order : 0 ≤ Int.log 10 (codeValue code) := by
      have pos := codeValue_pos nonzero
      rw [← Int.zpow_le_iff_le_log (by decide) pos, zpow_zero, whole]
      rw [whole] at pos
      exact_mod_cast pos
    have reached := before ⟨m, whole⟩ (by simp only [lastDigit]; omega)
    omega

end SymbolicKernel

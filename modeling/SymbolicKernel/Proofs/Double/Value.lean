import SymbolicKernel.Proofs.Rational
import SymbolicKernel.Double.Basic

namespace SymbolicKernel

/-- The value of a code in units of the least positive double. -/
def codeUnits (code : Nat) : Nat :=
  codeMantissa code * 2 ^ (codeExponent code + 1074).toNat

theorem codeUnits_of_lt {code : Nat} (low : code < 2 ^ 52) : codeUnits code = code := by
  simp only [codeUnits, codeMantissa, codeExponent, low, if_true]
  simp

theorem codeUnits_of_le {code : Nat} (high : 2 ^ 52 ≤ code) :
    codeUnits code = (2 ^ 52 + code % 2 ^ 52) * 2 ^ (code / 2 ^ 52 - 1) := by
  have normal : ¬ code < 2 ^ 52 := Nat.not_lt.mpr high
  have block : 1 ≤ code / 2 ^ 52 := (Nat.one_le_div_iff (by decide)).mpr high
  simp only [codeUnits, codeMantissa, codeExponent, normal, if_false]
  congr 2
  omega

theorem codeMantissa_lt (code : Nat) : codeMantissa code < 2 ^ 53 := by
  unfold codeMantissa
  split <;> omega

theorem codeUnits_eq_mul (code : Nat) : codeUnits code = codeMantissa code * 2 ^ (code / 2 ^ 52 - 1) := by
  by_cases low : code < 2 ^ 52
  · have block : code / 2 ^ 52 = 0 := Nat.div_eq_of_lt low
    rw [codeUnits_of_lt low, block]
    simp [codeMantissa, low]
  · rw [codeUnits_of_le (Nat.not_lt.mp low)]
    simp [codeMantissa, low]

/-- The next code is one unit in the last place further, also where the spacing doubles. -/
theorem codeUnits_succ (code : Nat) : codeUnits (code + 1) = codeUnits code + 2 ^ (code / 2 ^ 52 - 1) := by
  by_cases low : code + 1 < 2 ^ 52
  · have block : code / 2 ^ 52 = 0 := Nat.div_eq_of_lt (by omega)
    rw [codeUnits_of_lt low, codeUnits_of_lt (show code < 2 ^ 52 by omega), block]
  by_cases first : code + 1 = 2 ^ 52
  · have block : code / 2 ^ 52 = 0 := Nat.div_eq_of_lt (by omega)
    rw [codeUnits_of_lt (show code < 2 ^ 52 by omega), codeUnits_of_le (by omega), first, block]
    omega
  have high : 2 ^ 52 ≤ code := by omega
  rw [codeUnits_of_le high, codeUnits_of_le (by omega)]
  by_cases last : code % 2 ^ 52 = 2 ^ 52 - 1
  · have block : (code + 1) / 2 ^ 52 - 1 = code / 2 ^ 52 - 1 + 1 := by omega
    have rest : (code + 1) % 2 ^ 52 = 0 := by omega
    rw [block, rest, last, pow_succ]
    ring
  · have block : (code + 1) / 2 ^ 52 = code / 2 ^ 52 := by omega
    have rest : (code + 1) % 2 ^ 52 = code % 2 ^ 52 + 1 := by omega
    rw [block, rest]
    ring

/-- Codes count the doubles upwards. -/
theorem codeUnits_lt_succ (code : Nat) : codeUnits code < codeUnits (code + 1) := by
  rw [codeUnits_succ]
  exact Nat.lt_add_of_pos_right (Nat.two_pow_pos _)

theorem codeUnits_strictMono : StrictMono codeUnits :=
  strictMono_nat_of_lt_succ codeUnits_lt_succ

theorem codeUnits_zero : codeUnits 0 = 0 := codeUnits_of_lt (by decide)

/-- The least positive double. -/
def leastDouble : ℚ := 2 ^ (-1074 : ℤ)

theorem leastDouble_pos : 0 < leastDouble := zpow_pos (by norm_num) _

theorem leastDouble_ne_zero : leastDouble ≠ 0 := leastDouble_pos.ne'

theorem codeUnits_mul_leastDouble (code : Nat) :
    codeUnits code * leastDouble = codeMantissa code * 2 ^ codeExponent code := by
  have low : -1074 ≤ codeExponent code := by
    unfold codeExponent
    split <;> omega
  have shift : (((codeExponent code + 1074).toNat : ℕ) : ℤ) + -1074 = codeExponent code := by omega
  rw [codeUnits, leastDouble, Nat.cast_mul, Nat.cast_pow, Nat.cast_ofNat, mul_assoc, ← zpow_natCast,
    ← zpow_add₀ (by norm_num), shift]

namespace MachineReal

theorem toRat_eq (x : MachineReal) : x.toRat = Numeral.withSign x.negative (codeUnits x.code) * leastDouble := by
  have units := codeUnits_mul_leastDouble x.code
  rw [toRat, Rational.scaled_eq _ (by decide)]
  cases x.negative <;> simp [Numeral.withSign, units]

/-- Two finite doubles have one value exactly when they are equal as numbers: the value loses nothing but the sign
of zero. -/
theorem toRat_inj {x y : MachineReal} : x.toRat = y.toRat ↔ x.rank = y.rank := by
  have zero_iff : codeUnits x.code = 0 ↔ x.code = 0 := by
    rw [← codeUnits_strictMono.injective.eq_iff (a := x.code) (b := 0), codeUnits_zero]
  rw [toRat_eq, toRat_eq, mul_left_inj' leastDouble_ne_zero, Int.cast_inj, rank, rank, Numeral.withSign_inj,
    Numeral.withSign_inj, codeUnits_strictMono.injective.eq_iff, zero_iff]

theorem sameValue_iff {x y : MachineReal} : x.sameValue y = true ↔ x.toRat = y.toRat := by
  rw [sameValue, beq_iff_eq, toRat_inj]

end MachineReal

end SymbolicKernel

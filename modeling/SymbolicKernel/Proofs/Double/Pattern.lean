import SymbolicKernel.Proofs.Double.Arithmetic

/-!
The exact value of a double and the pattern of 64 bits that stores it. The value is the one that the binary format gives
to the fields of the pattern, rounding it to a double changes nothing, and but for the two zeros it tells all patterns
apart. Main statement: `MachineReal.toRat_inverts_rounding`.
-/
namespace SymbolicKernel

namespace Pattern

/-- The highest of the 64 bits. -/
def sign (bits : ℕ) : ℕ := bits / 2 ^ 63 % 2

/-- The eleven bits below the sign. -/
def exponent (bits : ℕ) : ℕ := bits / 2 ^ 52 % 2 ^ 11

/-- The lowest 52 bits. -/
def fraction (bits : ℕ) : ℕ := bits % 2 ^ 52

/-- The value that the format gives to a pattern. The fraction stands behind a one and a binary point, or behind a zero
if the exponent is zero, and then the scale is that of exponent one. -/
def value (bits : ℕ) : ℚ :=
  (-1) ^ sign bits *
    if exponent bits = 0 then (fraction bits : ℚ) / 2 ^ 52 * 2 ^ (-1022 : ℤ)
    else (1 + (fraction bits : ℚ) / 2 ^ 52) * 2 ^ (exponent bits - 1023 : ℤ)

end Pattern

/-- A code is an exponent in front of a fraction. -/
theorem codeValue_eq_fields (code : ℕ) : codeValue code =
    if code / 2 ^ 52 = 0 then ((code % 2 ^ 52 : ℕ) : ℚ) / 2 ^ 52 * 2 ^ (-1022 : ℤ)
    else (1 + ((code % 2 ^ 52 : ℕ) : ℚ) / 2 ^ 52) * 2 ^ ((code / 2 ^ 52 : ℕ) - 1023 : ℤ) := by
  rw [codeValue, codeUnits_mul_leastDouble, codeMantissa, codeExponent]
  by_cases low : code < 2 ^ 52
  · have scale : (2 : ℚ) ^ (-1022 : ℤ) = 2 ^ 52 * 2 ^ (-1074 : ℤ) := by
      rw [← zpow_natCast, ← zpow_add₀ (by norm_num)]
      rfl
    rw [if_pos low, if_pos low, if_pos (Nat.div_eq_of_lt low), Nat.mod_eq_of_lt low, scale]
    field_simp
  · have block : code / 2 ^ 52 ≠ 0 := by omega
    have scale : ((code / 2 ^ 52 : ℕ) - 1023 : ℤ) = (52 : ℕ) + ((code / 2 ^ 52 : ℕ) - 1075 : ℤ) := by omega
    rw [if_neg low, if_neg low, if_neg block, scale, zpow_add₀ (by norm_num), zpow_natCast, Nat.cast_add]
    generalize (2 : ℚ) ^ ((code / 2 ^ 52 : ℕ) - 1075 : ℤ) = u
    push_cast
    field_simp
    ring

namespace MachineReal

variable (x y : MachineReal)

theorem sign_toBits : Pattern.sign x.toBits = x.negative.toNat := by
  have finite := x.code_lt
  rw [infinityCode] at finite
  rw [Pattern.sign, toBits]
  cases x.negative
  · simp only [Bool.false_eq_true, if_false, Bool.toNat_false]
    omega
  · simp only [if_true, Bool.toNat_true]
    omega

theorem exponent_toBits : Pattern.exponent x.toBits = x.code / 2 ^ 52 := by
  have finite := x.code_lt
  rw [infinityCode] at finite
  rw [Pattern.exponent, toBits]
  split <;> omega

theorem fraction_toBits : Pattern.fraction x.toBits = x.code % 2 ^ 52 := by
  rw [Pattern.fraction, toBits]
  split <;> omega

theorem toRat_eq_value : x.toRat = Pattern.value x.toBits := by
  rw [Pattern.value, sign_toBits, exponent_toBits, fraction_toBits, ← codeValue_eq_fields, toRat_eq_codeValue]
  cases x.negative <;> simp

theorem sameValue_iff_eq : x.sameValue y = true ↔ x = y ∨ x.code = 0 ∧ y.code = 0 := by
  rw [sameValue, beq_iff_eq, rank, rank, Numeral.withSign_inj]
  obtain ⟨negative, code, _⟩ := x
  obtain ⟨negative', code', _⟩ := y
  simp only [mk.injEq]
  constructor
  · rintro ⟨rfl, rfl | rfl⟩
    · exact .inl ⟨rfl, rfl⟩
    · exact .inr ⟨rfl, rfl⟩
  · rintro (⟨rfl, rfl⟩ | ⟨rfl, rfl⟩)
    · exact ⟨rfl, .inl rfl⟩
    · exact ⟨rfl, .inr rfl⟩

end MachineReal

namespace Double

/-- Every finite double is stored in one pattern, of which only 64 bits count. -/
theorem ofBits_eq_finite_iff (bits : ℕ) (x : MachineReal) : ofBits bits = finite x ↔ bits % 2 ^ 64 = x.toBits := by
  obtain ⟨negative, code, small⟩ := x
  have last : infinityCode = 2047 * 2 ^ 52 := rfl
  rw [ofBits, ofCode, MachineReal.toBits]
  dsimp only
  split
  · split
    · rw [finite.injEq, MachineReal.mk.injEq]
      cases negative <;> simp only [decide_eq_true_eq, decide_eq_false_iff_not, if_true, Bool.false_eq_true, if_false] <;>
        omega
    · refine iff_of_false (by simp only [reduceCtorEq, not_false_iff]) ?_
      split <;> omega
  · refine iff_of_false (by simp only [reduceCtorEq, not_false_iff]) ?_
    split <;> omega

/-- The patterns of finite doubles are those whose exponent is not all ones. -/
theorem exists_finite_iff (bits : ℕ) : (∃ x, ofBits bits = finite x) ↔ Pattern.exponent bits < 2047 := by
  have last : infinityCode = 2047 * 2 ^ 52 := rfl
  have field : Pattern.exponent bits = bits % 2 ^ 63 / 2 ^ 52 := by
    rw [Pattern.exponent]
    omega
  rw [ofBits, ofCode, field]
  constructor
  · rintro ⟨x, made⟩
    split at made
    · split at made
      · omega
      · cases made
    · cases made
  · intro small
    have code : bits % 2 ^ 63 < infinityCode := by omega
    exact ⟨_, by rw [if_pos code.le, dif_pos code]⟩

/-- The exact value is rounded back to the double. Only the sign of a zero is not in the value. -/
theorem ofRat_toRat (x : MachineReal) : ofRat x.toRat = finite (if x.code = 0 then .zero else x) := by
  obtain ⟨code, closest, rounded⟩ := ofRat_eq_ofCode x.toRat
  rw [x.abs_toRat] at closest
  rw [rounded, closest.unique (.self x.code), min_eq_left x.code_lt.le, ofCode, dif_pos x.code_lt]
  split
  · rename_i zero
    have nothing := MachineReal.toRat_eq_zero_iff.mpr zero
    simp [nothing, zero, MachineReal.zero]
  · rename_i nonzero
    rw [← x.negative_eq_decide (MachineReal.toRat_eq_zero_iff.not.mpr nonzero)]

/-- A number that is a double has no other nearest double. -/
theorem isNearest_toRat_iff (d : Double) (x : MachineReal) : d.IsNearest x.toRat ↔ d.Equal (finite x) := by
  constructor
  · intro nearest
    cases d with
    | finite y =>
      rw [Equal, MachineReal.sameValue_iff]
      by_contra other
      have far := nearest.2 x (Ne.symm other)
      rw [sub_self, abs_zero] at far
      have near := abs_pos.mpr (sub_ne_zero.mpr other)
      rcases far with less | ⟨equal, _⟩ <;> linarith
    | infinite negative => exact absurd x.abs_toRat_lt (not_lt.mpr nearest.1)
    | nan => exact nearest
  · intro equal
    obtain ⟨y, rfl, same⟩ := equal.exists_finite
    rw [← MachineReal.sameValue_iff.mp same]
    exact y.rounds_toRat.isNearest

end Double

/-- The finite doubles are what the patterns stand for whose exponent is not all ones, one pattern for each. The exact
value of a double is the value of its pattern, and taking it is undone by rounding: the nearest double to it is the double
again, and one that is not equal to it is not a nearest one. Two doubles have one value exactly if they are equal as
numbers, which apart from the two zeros makes them one double. -/
theorem MachineReal.toRat_inverts_rounding :
    (∀ bits, (∃ x, Double.ofBits bits = .finite x) ↔ Pattern.exponent bits < 2047) ∧
      ∀ x : MachineReal,
        (∀ bits, Double.ofBits bits = .finite x ↔ bits % 2 ^ 64 = x.toBits) ∧ x.toRat = Pattern.value x.toBits ∧
        Double.ofRat x.toRat = .finite (if x.code = 0 then .zero else x) ∧
        (∀ d : Double, d.IsNearest x.toRat ↔ d.Equal (.finite x)) ∧
        ∀ y : MachineReal, (x.toRat = y.toRat ↔ x.sameValue y = true) ∧
          (x.sameValue y = true ↔ x = y ∨ x.code = 0 ∧ y.code = 0) := by
  refine ⟨Double.exists_finite_iff, fun x => ⟨?_, x.toRat_eq_value, Double.ofRat_toRat x, ?_, ?_⟩⟩
  · intro bits
    exact Double.ofBits_eq_finite_iff bits x
  · intro d
    exact Double.isNearest_toRat_iff d x
  · intro y
    exact ⟨sameValue_iff.symm, x.sameValue_iff_eq y⟩

end SymbolicKernel

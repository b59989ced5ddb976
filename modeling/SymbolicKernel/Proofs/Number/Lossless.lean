import SymbolicKernel.Proofs.Expr.Same
import SymbolicKernel.Proofs.Number.Coerce
import SymbolicKernel.Proofs.Number.Digits
import SymbolicKernel.Proofs.Number.Rounding

/-!
Which numbers are coerced to digits without loss: those with a decimal expansion that ends within these digits. All
doubles have one that ends. Main statement: `Number.coerce_lossless_iff`.
-/
namespace SymbolicKernel

namespace Decimal

variable {x : Decimal} {digits : ℕ}

/-- A division that ends within the digits asked for is carried to its end, and neither rounding changes it. -/
theorem toRat_ofRat_toRat (fits : x.digits ≤ digits) (pos : 0 < digits) : (ofRat x.toRat digits).toRat = x.toRat := by
  have carried := lt_workingDigits x.toRat digits
  rw [toRat_ofRat, roundDigits_of_digits_le (by omega : x.digits ≤ workingDigits x.toRat digits),
    roundDigits_of_digits_le (by omega)]

theorem exists_parts_iff {v : ℚ} :
    (∃ x : Decimal, x.toRat = v ∧ x.digits ≤ digits) ↔ ∃ m e : ℤ, |m| < 10 ^ digits ∧ v = m * 10 ^ e := by
  have magnitude (m : ℤ) : |m| < 10 ^ digits ↔ m.natAbs < 10 ^ digits := by
    rw [Int.abs_eq_natAbs]
    exact_mod_cast Iff.rfl
  constructor
  · rintro ⟨x, rfl, fits⟩
    exact ⟨x.significand, x.exponent, (magnitude _).mpr (digits_le_iff.mp fits), x.toRat_eq⟩
  · rintro ⟨m, e, small, rfl⟩
    refine ⟨ofParts m e, toRat_ofParts m e, ?_⟩
    exact (digits_le_of_toRat_eq (toRat_ofParts m e)).trans ((Numeral.length_le_iff (by decide)).mpr ((magnitude m).mp small))

end Decimal

namespace MachineReal

/-- The decimal that a double is exactly equal to. -/
def exact (x : MachineReal) : Decimal :=
  .ofParts (Numeral.withSign x.negative (codeUnits x.code * 5 ^ 1074)) (-1074)

theorem two_zpow_neg (k : ℕ) : (2 : ℚ) ^ (-(k : ℤ)) = (5 ^ k : ℕ) * 10 ^ (-(k : ℤ)) := by
  have ten : (10 : ℚ) = 2 * 5 := by norm_num
  rw [ten, mul_zpow, zpow_neg, zpow_neg, zpow_natCast, zpow_natCast, Nat.cast_pow, Nat.cast_ofNat]
  field_simp

theorem toRat_exact (x : MachineReal) : x.exact.toRat = x.toRat := by
  have least : leastDouble = (5 ^ 1074 : ℕ) * 10 ^ (-1074 : ℤ) := two_zpow_neg 1074
  rw [exact, Decimal.toRat_ofParts, x.toRat_eq, least, Numeral.withSign_mul, Int.cast_mul, Int.cast_natCast, mul_assoc]

end MachineReal

namespace RealNumber

variable {x : RealNumber} {digits : ℕ}

/-- What is not already of high precision is stored exactly if it is a decimal of no more digits than asked for. -/
theorem toRat_toPrecise_of_digits_le {d : Decimal} (limited : x.kind ≠ .precisionReal) (value : d.toRat = x.toRat)
    (fits : d.digits ≤ digits) (pos : 0 < digits) (few : digits ≤ Precision.maxDigits) :
    (x.toPrecise digits).toRat = x.toRat := by
  have worth : Precision.bitsToDigits (Precision.digitsToBits digits) = digits := by
    rw [Precision.bitsToDigits_digitsToBits]
    omega
  have divided {v : ℚ} (same : d.toRat = v) : (PrecisionReal.ofRat v digits).toRat = v := by
    have limit : (Decimal.ofRat v digits).precision ≤ digits := by
      rw [Decimal.ofRat_precision]
      omega
    rw [PrecisionReal.ofRat, PrecisionReal.withDigits, PrecisionReal.ofDecimal, PrecisionReal.toRat, worth,
      Decimal.toRat_withPrecision_of_le limit, ← same, Decimal.toRat_ofRat_toRat fits pos]
  cases x with
  | integer n =>
    have whole : ((n : ℤ) : ℚ) * 10 ^ (0 : ℤ) = d.toRat := by rw [zpow_zero, mul_one, value, toRat]
    change (PrecisionReal.ofDecimal (.ofParts n 0) (Precision.digitsToBits digits)).toRat = n
    rw [PrecisionReal.toRat_ofParts, worth, whole, Decimal.roundDigits_of_digits_le fits, value, toRat]
  | rational v => exact divided value
  | machine m => exact divided value
  | precise r => exact absurd rfl limited

/-- No other number is stored exactly, since what is stored has no more digits than asked for. -/
theorem toRat_toPrecise_iff (limited : x.kind ≠ .precisionReal) (pos : 0 < digits) (few : digits ≤ Precision.maxDigits) :
    (x.toPrecise digits).toRat = x.toRat ↔ ∃ d : Decimal, d.toRat = x.toRat ∧ d.digits ≤ digits := by
  constructor
  · intro kept
    have rounded : x.IsRounded := by
      cases x with
      | integer _ | rational _ | machine _ => trivial
      | precise _ => exact absurd rfl limited
    have asked : (x.toPrecise digits).digits = digits := by
      obtain ⟨value, stored⟩ | ⟨own, rfl, _⟩ := x.toPrecise_cases digits
      · rw [stored, PrecisionReal.digits_withDigits]
        omega
      · exact absurd rfl limited
    exact ⟨_, kept, (isRounded_toPrecise rounded digits).digits_le.trans_eq asked⟩
  · rintro ⟨d, value, fits⟩
    exact toRat_toPrecise_of_digits_le limited value fits pos few

end RealNumber

/-- To as many digits as can be asked for, exact numbers and machine reals are coerced without loss exactly if their value
is a whole number of so many digits times a power of ten. A machine real is the same as what it is coerced to exactly if
its binary value has no more digits. -/
theorem Number.coerce_lossless_iff {x : RealNumber} {digits : ℕ} (limited : x.kind ≠ .precisionReal) (pos : 1 ≤ digits)
    (few : digits ≤ 10 ^ 9) :
    ∃ r : PrecisionReal, Number.coerce (some digits) (.real x) = .ok (.real (.precise r)) ∧
      (r.toRat = x.toRat ↔ ∃ m e : ℤ, |m| < 10 ^ digits ∧ x.toRat = m * 10 ^ e) ∧
      ∀ y : MachineReal, x = .machine y → y.exact.toRat = y.toRat ∧
        ((real x).same (real (.precise r)) = true ↔ y.exact.digits ≤ digits) ∧
        ((real (.precise r)).same (real x) = true ↔ y.exact.digits ≤ digits) := by
  have kept := RealNumber.toRat_toPrecise_iff limited pos (few.trans (by decide))
  refine ⟨x.toPrecise digits, rfl, kept.trans Decimal.exists_parts_iff, ?_⟩
  rintro y rfl
  have ends : (∃ d : Decimal, d.toRat = y.toRat ∧ d.digits ≤ digits) ↔ y.exact.digits ≤ digits := by
    constructor
    · rintro ⟨d, value, fits⟩
      rwa [Decimal.digits_congr (y.toRat_exact.trans value.symm)]
    · exact fun fits => ⟨y.exact, y.toRat_exact, fits⟩
  have same := kept.trans ends
  refine ⟨y.toRat_exact, ?_, ?_⟩
  · rw [Number.same, RealNumber.same, beq_iff_eq, ← same]
    exact eq_comm
  · rw [Number.same, RealNumber.same, beq_iff_eq, ← same]
    rfl

/-- The double nearest to one tenth, which has fifty-five digits. -/
theorem Number.coerce_lossless_iff_of_tenth :
    let x : MachineReal := ⟨false, 0x3fb999999999999a, by decide⟩
    (RealNumber.machine x).kind ≠ .precisionReal ∧ x.exact.digits = 55 ∧
      (∃ r : PrecisionReal, Number.coerce (some 55) (.real (.machine x)) = .ok (.real (.precise r)) ∧ r.toRat = x.toRat ∧
        (real (.machine x)).same (real (.precise r)) = true ∧ (real (.precise r)).same (real (.machine x)) = true) ∧
      ∃ r : PrecisionReal, Number.coerce (some 54) (.real (.machine x)) = .ok (.real (.precise r)) ∧
        ¬ (real (.machine x)).same (real (.precise r)) = true := by
  intro x
  have limited : (RealNumber.machine x).kind ≠ .precisionReal := by decide
  have digits : x.exact.digits = 55 := by decide +kernel
  obtain ⟨r, made, lossless, inBinary⟩ := coerce_lossless_iff limited (by decide : 1 ≤ 55) (by decide)
  obtain ⟨value, right, left⟩ := inBinary x rfl
  obtain ⟨s, made', _, inBinary'⟩ := coerce_lossless_iff limited (by decide : 1 ≤ 54) (by decide)
  obtain ⟨_, right', _⟩ := inBinary' x rfl
  refine ⟨limited, digits, ⟨r, made, ?_, right.mpr digits.le, left.mpr digits.le⟩, s, made', ?_⟩
  · exact lossless.mpr (Decimal.exists_parts_iff.mp ⟨x.exact, value, digits.le⟩)
  · rw [right', digits]
    decide

end SymbolicKernel

import SymbolicKernel.Number.PrecisionReal
import SymbolicKernel.Proofs.Decimal.Digits
import SymbolicKernel.Proofs.Precision

/-!
Decimals and reals that are made of written numbers. Stripping zeros and rounding raise the exponent, and as long as it
stays one of 64 bits the value is that of the written number, as if exponents had no limit.
-/
namespace SymbolicKernel

namespace WrittenDecimal

/-- With its zeros stripped and rounded to so many digits, a written number still has an exponent of 64 bits; no digits
stand for no rounding. The exponent can be greater only if it is positive from the start, since no number has `2 ^ 63`
digits. -/
def Fits (x : WrittenDecimal) (digits : ℕ) : Prop :=
  0 < x.exponent → ((Decimal.ofParts x.significand x.exponent).withPrecision digits).exponent < 2 ^ 63

instance (x : WrittenDecimal) (digits : ℕ) : Decidable (x.Fits digits) :=
  inferInstanceAs (Decidable (_ → _))

theorem fits_of_nonpos {x : WrittenDecimal} (nonpos : x.exponent ≤ 0) (digits : ℕ) : x.Fits digits :=
  fun pos => absurd pos (not_lt.mpr nonpos)

end WrittenDecimal

namespace Decimal

variable {x : Decimal} {w : WrittenDecimal} {significand exponent : ℤ} {precision digits : ℕ}

theorem exponent_le_ofScaled (nonzero : significand ≠ 0) (exponent : ℤ) (precision : ℕ) :
    exponent ≤ (ofScaled significand exponent precision).exponent := by
  simp only [ofScaled, normalize, if_neg nonzero]
  omega

/-- Rounding takes digits away at the end. -/
theorem exponent_le_withPrecision (x : Decimal) (precision : ℕ) : x.exponent ≤ (x.withPrecision precision).exponent := by
  rw [withPrecision]
  split
  · rename_i cut
    have least : 10 ^ (x.digits - precision) * 1 ≤ x.significand.natAbs := by
      have fewer : ¬ x.digits ≤ x.digits - precision := by omega
      rw [digits_le_iff, not_lt] at fewer
      rwa [mul_one]
    have rounded := le_roundDiv_of_le .awayFromZero (by positivity) least
    have nonzero : Numeral.withSign (x.significand < 0)
        (roundDiv .awayFromZero x.significand.natAbs (10 ^ (x.digits - precision))) ≠ 0 := by
      rw [← Int.natAbs_ne_zero, Numeral.natAbs_withSign]
      omega
    have raised := exponent_le_ofScaled nonzero (x.exponent + (x.digits - precision : ℕ)) precision
    have above : x.exponent ≤ x.exponent + (x.digits - precision : ℕ) := by omega
    exact above.trans raised
  · exact le_rfl

@[simp] theorem raisedFrom_precision (x : Decimal) (exponent : ℤ) : (x.raisedFrom exponent).precision = x.precision := by
  rw [raisedFrom]
  split <;> rfl

@[simp] theorem raisedFrom_digits (x : Decimal) (exponent : ℤ) : (x.raisedFrom exponent).digits = x.digits := by
  rw [raisedFrom]
  split <;> rfl

theorem raisedFrom_of_fits (fits : 0 < exponent → 0 ≤ x.exponent ∧ x.exponent < 2 ^ 63) : x.raisedFrom exponent = x := by
  rw [raisedFrom]
  split
  · rename_i pos
    obtain ⟨low, high⟩ := fits pos
    have kept : Numeral.wrap x.exponent = x.exponent := Numeral.wrap_eq_self_iff.mpr ⟨by omega, high⟩
    simp only [wrap, kept]
  · rfl

theorem exponent_ofParts_nonneg (significand : ℤ) (nonneg : 0 ≤ exponent) : 0 ≤ (ofParts significand exponent).exponent := by
  by_cases zero : significand = 0
  · simp [ofParts, ofScaled, normalize, zero]
  · exact nonneg.trans (exponent_le_ofScaled zero _ _)

/-- From a positive exponent on, both the decimal as it is written and the rounded one stay between zero and the limit. -/
theorem exponents_of_fits (fits : w.Fits digits) (pos : 0 < w.exponent) :
    let exact := ofParts w.significand w.exponent
    0 ≤ exact.exponent ∧ exact.exponent ≤ (exact.withPrecision digits).exponent ∧
      (exact.withPrecision digits).exponent < 2 ^ 63 :=
  ⟨exponent_ofParts_nonneg _ pos.le, exponent_le_withPrecision _ _, fits pos⟩

theorem ofWritten_of_fits (fits : w.Fits digits) : ofWritten w = ofParts w.significand w.exponent := by
  apply raisedFrom_of_fits
  intro pos
  obtain ⟨low, raised, high⟩ := exponents_of_fits fits pos
  exact ⟨low, raised.trans_lt high⟩

/-- To strip the zero takes the greatest exponent of 64 bits to the least. -/
example : ¬ WrittenDecimal.Fits ⟨10, 2 ^ 63 - 1⟩ 20 ∧ (ofWritten ⟨10, 2 ^ 63 - 1⟩).exponent = -2 ^ 63 := by decide +kernel

theorem digits_ofWritten_le (w : WrittenDecimal) : (ofWritten w).digits ≤ (ofWritten w).precision := by
  rw [ofWritten, raisedFrom_digits, raisedFrom_precision]
  exact digits_ofParts_le _ _

end Decimal

namespace PrecisionReal

variable {w : WrittenDecimal} {bits : ℕ}

/-- A written number whose exponent keeps to 64 bits is rounded as any other decimal is. -/
theorem ofWritten_of_fits (fits : w.Fits (Precision.bitsToDigits bits)) :
    ofWritten w bits = ofDecimal (.ofParts w.significand w.exponent) bits := by
  rw [ofWritten, Decimal.ofWritten_of_fits fits, Decimal.raisedFrom_of_fits, ofDecimal]
  intro pos
  obtain ⟨low, raised, high⟩ := Decimal.exponents_of_fits fits pos
  exact ⟨low.trans raised, high⟩

theorem toRat_ofWritten (fits : w.Fits (Precision.bitsToDigits bits)) :
    (ofWritten w bits).toRat = roundDigits (Precision.bitsToDigits bits) (w.significand * 10 ^ w.exponent) := by
  rw [ofWritten_of_fits fits]
  exact Decimal.toRat_withPrecision_ofParts _ _ (Precision.bitsToDigits_pos bits)

end PrecisionReal

end SymbolicKernel

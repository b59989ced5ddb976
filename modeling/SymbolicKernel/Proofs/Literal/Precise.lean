import SymbolicKernel.Proofs.Decimal.Reader
import SymbolicKernel.Proofs.Literal.Value
import SymbolicKernel.Proofs.Lowering.Registration
import SymbolicKernel.Proofs.Number.Written

/-!
The text that a literal is handed on as is read back as its exact value, as long as its exponents are numbers of 64 bits,
so a literal that could be classified can also be built unless it is out of the range of doubles.
-/
namespace SymbolicKernel

open Interning

/-- The digits asked for survive being counted in bits as far as bits can count them. -/
theorem PrecisionReal.digits_ofWritten (w : WrittenDecimal) {digits : ℕ} (pos : 0 < digits) :
    (ofWritten w (Precision.digitsToBits digits)).digits = min digits Precision.maxDigits := by
  have most : 0 < Precision.maxDigits := by decide
  rw [PrecisionReal.digits, ofWritten, Precision.bitsToDigits_digitsToBits]
  omega

namespace Draft

theorem resolve_rational {p q : ℤ} (nonzero : q ≠ 0) (resolver : Resolver) :
    (rational p q).resolve resolver = .ok (.number (.real (.rational (mkRat (p * q.sign) q.natAbs)))) := by
  rw [resolve, Rational.ofFraction, if_neg nonzero]
  rfl

end Draft

namespace Literal

variable {l : Literal} {d : Draft}

/-- All exponents on the way from a literal to a real of so many digits are numbers of 64 bits: the one that is written,
that of the last digit, and that of the decimal whose zeros are stripped and which is rounded. The exponent of the last
digit can only be below the range, and only if the one that is written is negative, since no text has `2 ^ 63` digits. -/
structure Fits (l : Literal) (digits : ℕ) : Prop where
  written : -2 ^ 63 ≤ l.exponent ∧ l.exponent < 2 ^ 63
  last : l.exponent < 0 → -2 ^ 63 ≤ l.lastExponent
  stored : WrittenDecimal.Fits ⟨l.significand, l.lastExponent⟩ digits

/-- Without an exponent, the digits of a literal are near enough to the point. -/
theorem fits_of_exponent_eq_zero (zero : l.exponent = 0) (digits : ℕ) : l.Fits digits := by
  have last : l.lastExponent ≤ 0 := by
    rw [lastExponent]
    omega
  refine ⟨?_, fun negative => absurd negative (by omega), WrittenDecimal.fits_of_nonpos last digits⟩
  rw [zero]
  decide

theorem signedText_toList (l : Literal) :
    l.signedText.toList =
      Text.signed l.negative (l.parts.1 ++ '.' :: l.parts.2) ++ WrittenDecimal.powerText l.exponent := by
  rw [signedText, String.toList_append, decimalText_toList]
  cases l.negative <;> rfl

theorem read?_signedText (wellFormed : l.isWellFormed = true) (ten : l.base = 10) :
    WrittenDecimal.read? l.signedText.toList =
      ((some l.exponent).filter fun n => -2 ^ 63 ≤ n ∧ n < 2 ^ 63).map fun e =>
        ⟨l.significand, WrittenDecimal.lowered e l.parts.2.length⟩ := by
  obtain ⟨nonempty, all⟩ := isDigitOf_parts wellFormed
  have digits : (l.parts.1 ++ l.parts.2).all Char.isDigit = true := by
    rw [ten, funext Numeral.isDigitOf_ten] at all
    exact all
  rw [signedText_toList, WrittenDecimal.read?_mantissa _ _ (.pointed _ _) nonempty digits, significand, ten]

theorem ofText_signedText (wellFormed : l.isWellFormed = true) (ten : l.base = 10) {digits : ℕ} (fits : l.Fits digits) :
    WrittenDecimal.ofText l.signedText = .ok ⟨l.significand, l.lastExponent⟩ := by
  have last : WrittenDecimal.lowered l.exponent l.parts.2.length = l.lastExponent :=
    WrittenDecimal.lowered_eq_iff.mpr fits.last
  rw [WrittenDecimal.ofText, read?_signedText wellFormed ten, Option.filter_some, if_pos (by simpa using fits.written),
    Option.map_some, last]

/-- The text of a literal is built as its value, rounded to the digits asked for, if its exponents fit in 64 bits. -/
theorem resolve_text (wellFormed : l.isWellFormed = true) (ten : l.base = 10) (digits : Double)
    (fits : l.Fits (min (Precision.digitsOfDouble digits) Precision.maxDigits)) (resolver : Resolver) :
    ∃ r, (Draft.precise (.text l.signedText) digits).resolve resolver = .ok (.number (.real (.precise r))) ∧
      r.digits = min (Precision.digitsOfDouble digits) Precision.maxDigits ∧ r.toRat = roundDigits r.digits l.value := by
  let w : WrittenDecimal := ⟨l.significand, l.lastExponent⟩
  have kept := PrecisionReal.digits_ofWritten w (Precision.digitsOfDouble_pos digits)
  have stored := fits.stored
  rw [← kept] at stored
  refine ⟨.ofWritten w (Precision.digitsToBits (Precision.digitsOfDouble digits)), ?_, kept, ?_⟩
  · simp only [Draft.resolve, Draft.buildPrecise, PrecisionReal.ofText, ofText_signedText wellFormed ten fits]
    rfl
  · rw [value_eq_scaled (by omega), ten]
    exact PrecisionReal.toRat_ofWritten stored

theorem resolve_precise {source : PreciseSource} {digits : Double} (ten : l.base = 10)
    (fits : l.Fits (min (Precision.digitsOfDouble digits) Precision.maxDigits))
    (made : l.toDraft = .ok (.precise source digits)) (resolver : Resolver) :
    ∃ r, (Draft.precise source digits).resolve resolver = .ok (.number (.real (.precise r))) ∧
      r.digits = min (Precision.digitsOfDouble digits) Precision.maxDigits ∧ r.toRat = roundDigits r.digits l.value := by
  obtain ⟨wellFormed, classified⟩ := toDraft_classified made
  cases classified with
  | radixPrecise _ other => exact absurd ten other
  | decimalPrecise digits _ => exact resolve_text wellFormed ten digits fits resolver

end Literal

end SymbolicKernel

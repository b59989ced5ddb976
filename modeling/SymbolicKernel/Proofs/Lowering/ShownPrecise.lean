import SymbolicKernel.Proofs.Lowering.Shown
import SymbolicKernel.Proofs.Number.Digits

/-!
Reals of high precision that are shown and read back. What is shown is all digits of the value, however many, and the
digits that the precision is worth; what is read back is rounded to the latter. Main statement:
`PrecisionReal.reads_back_iff_few_digits`.
-/
namespace SymbolicKernel

open Interning

namespace PrecisionReal

/-- The literal that a real is shown as: the sign, the digits in their places, and the precision behind them. -/
def literal (r : PrecisionReal) : Literal where
  negative := r.value.significand < 0
  digits := String.ofList (Text.positional (Numeral.decimalDigits r.value.significand.natAbs) r.value.exponent)
  base := 10
  exponent := 0
  suffix := some r.digits.repr

theorem text_literal (r : PrecisionReal) : r.literal.text = r.text := by
  rw [← String.toList_inj, Literal.text, PrecisionReal.text, Decimal.text, literal]
  by_cases neg : r.value.significand < 0 <;> simp [neg, Text.signed]

/-- The literal is lowered to a real of the same value and of as many digits. -/
def ReadsBack (r : PrecisionReal) : Prop :=
  ∀ (resolver : Resolver) (table : SymbolTable), ∃ s : PrecisionReal,
    perform ((Tree.number r.literal).lower resolver) table = (.ok (.number (.real (.precise s))), table) ∧
      s.toRat = r.toRat ∧ s.digits = r.digits

variable {r : PrecisionReal}

theorem value_literal (r : PrecisionReal) : r.literal.isWellFormed = true ∧ r.literal.value = r.toRat := by
  obtain ⟨whole, fraction, shows⟩ := Shows.exists_positional r.value.significand.natAbs r.value.exponent
  rw [← String.toList_ofList (l := Text.positional _ _)] at shows
  obtain ⟨wellFormed, _, value⟩ := Literal.of_shows (l := r.literal) shows rfl rfl
  have signed : (if r.literal.negative then -1 else 1) * (r.value.significand.natAbs : ℚ) = r.value.significand := by
    rw [literal, ← Numeral.withSign_cast, Numeral.withSign_natAbs]
  refine ⟨wellFormed, ?_⟩
  rw [value, toRat, Decimal.toRat_eq, ← mul_assoc, signed]

theorem lower_literal (counted : r.bits ≤ Precision.maxCount) (resolver : Resolver) (table : SymbolTable) :
    ∃ s : PrecisionReal,
      perform ((Tree.number r.literal).lower resolver) table = (.ok (.number (.real (.precise s))), table) ∧
        s.toRat = roundDigits r.digits r.toRat ∧ s.digits = r.digits := by
  have pos : 0 < r.digits := Precision.bitsToDigits_pos r.bits
  have few : r.digits ≤ Precision.maxDigits := Precision.bitsToDigits_le counted
  have short : r.digits ≤ Precision.maxCount := few.trans (by decide)
  obtain ⟨wellFormed, value⟩ := r.value_literal
  obtain ⟨y, count, exact⟩ := Double.ofInt_natCast (n := r.digits) (lt_of_le_of_lt few (by decide))
  have number : Double.ofText? r.digits.repr = some (.finite y) := by rw [Double.ofText?_repr, count]
  have made : r.literal.toDraft = .ok (.precise (.text r.literal.signedText) (.finite y)) := by
    have suffix : r.literal.suffix = some r.digits.repr := rfl
    have ten : r.literal.base = 10 := rfl
    rw [Literal.toDraft_eq wellFormed, if_neg (by simp [suffix]), if_pos ten,
      Literal.classifyDecimal_precision suffix number]
  obtain ⟨s, resolved, digits, rounded⟩ :=
    Literal.resolve_text wellFormed rfl (.finite y) (Literal.fits_of_exponent_eq_zero rfl _) resolver
  rw [Precision.digitsOfDouble_natCast exact pos short, min_eq_left few] at digits
  rw [digits, value] at rounded
  exact ⟨s, Tree.lower_number made resolved table, rounded, digits⟩

/-- What is shown is read back when there is nothing to be rounded. -/
theorem readsBack_iff (counted : r.bits ≤ Precision.maxCount) : r.ReadsBack ↔ r.value.digits ≤ r.digits := by
  rw [← Decimal.roundDigits_eq_self_iff]
  constructor
  · intro back
    obtain ⟨s, run, same, _⟩ := back .default .fresh
    obtain ⟨s', run', rounded, _⟩ := lower_literal counted .default .fresh
    rw [run] at run'
    cases run'
    exact rounded.symm.trans same
  · intro kept resolver table
    obtain ⟨s, run, rounded, digits⟩ := lower_literal counted resolver table
    exact ⟨s, run, rounded.trans kept, digits⟩

/-- The text of a real is lowered to the real rounded to the digits that its precision is worth, so it is read back as
the same number exactly when it has no more digits than that. If it was made of a decimal, this is so exactly when the
decimal could be rounded to its precision. All reals that are made of such decimals, of a text or of a quotient, coerced
or lowered, are read back. -/
theorem reads_back_iff_few_digits (counted : r.bits ≤ Precision.maxCount) :
    r.literal.text = r.text ∧
    (∀ (resolver : Resolver) (table : SymbolTable), ∃ s : PrecisionReal,
      perform ((Tree.number r.literal).lower resolver) table = (.ok (.number (.real (.precise s))), table) ∧
        s.toRat = roundDigits r.digits r.toRat ∧ s.digits = r.digits) ∧
    (r.ReadsBack ↔ r.value.digits ≤ r.digits) ∧
    (∀ value : Decimal, r = .ofDecimal value r.bits → (r.ReadsBack ↔ value.Roundable r.digits)) ∧
    ∀ n : Number, n.Built → n.Holds r → r.ReadsBack := by
  refine ⟨r.text_literal, lower_literal counted, readsBack_iff counted, ?_, ?_⟩
  · intro value made
    have pos : 0 < r.digits := Precision.bitsToDigits_pos r.bits
    have stored : r.value = value.withPrecision r.digits := congrArg PrecisionReal.value made
    rw [readsBack_iff counted, stored, Decimal.digits_withPrecision_le_iff pos]
  · intro n built inside
    exact (readsBack_iff counted).mpr (built.isRounded.holds inside).digits_le

/-- A third to twenty digits. -/
theorem reads_back_iff_few_digits_of_third :
    let r := PrecisionReal.ofRat (-1 / 3) 20
    r.bits ≤ Precision.maxCount ∧ (Number.real (.precise r)).Built ∧ r.text = "-0.33333333333333333333`20" ∧
      r.literal.text = "-0.33333333333333333333`20" ∧ r.ReadsBack ∧
      (Decimal.ofRat (-1 / 3) 20).Roundable r.digits := by
  intro r
  have counted : r.bits ≤ Precision.maxCount := Precision.clampCount_le _
  have built : (Number.real (.precise r)).Built := .ofRat (-1 / 3) 20
  have text : r.text = "-0.33333333333333333333`20" := by decide +kernel
  obtain ⟨shown, _, _, roundable, back⟩ := reads_back_iff_few_digits counted
  have reads : r.ReadsBack := back _ built rfl
  exact ⟨counted, built, text, shown.trans text, reads, (roundable _ rfl).mp reads⟩

/-- An unlimited decimal of five digits in thirteen bits, which are worth three: it is not coerced, since it has few
enough, and is shown with all its digits. -/
theorem unlimited_is_not_read_back :
    let r := PrecisionReal.ofDecimal ((Decimal.ofParts 12345 (-4)).withPrecision 0) 13
    RealNumber.coerce (some 50) (.precise r) = .ok (.precise r) ∧ r.text = "1.2345`3" ∧ r.toRat = 12345 / 10000 ∧
      (∃ s : PrecisionReal, perform ((Tree.number r.literal).lower .default) .fresh =
        (.ok (.number (.real (.precise s))), .fresh) ∧ s.toRat = 123 / 100) ∧ ¬ r.ReadsBack := by
  intro r
  have counted : r.bits ≤ Precision.maxCount := by decide
  have worth : r.digits = 3 := by decide +kernel
  have many : ¬ r.value.digits ≤ r.digits := by decide +kernel
  have value : r.toRat = 12345 / 10000 := by decide +kernel
  have rounded : ((Decimal.ofParts 12345 (-4)).withPrecision 3).toRat = 123 / 100 := by decide +kernel
  have shorter : (((12345 : ℤ) : ℚ) * 10 ^ (-4 : ℤ)) = r.toRat := by
    rw [value]
    norm_num
  rw [Decimal.toRat_withPrecision_ofParts _ _ (by decide), shorter] at rounded
  obtain ⟨s, run, read, _⟩ := lower_literal counted .default .fresh
  rw [worth, rounded] at read
  exact ⟨by decide +kernel, by decide +kernel, value, ⟨s, run, read⟩, (readsBack_iff counted).not.mpr many⟩

end PrecisionReal

end SymbolicKernel

import SymbolicKernel.Proofs.Double.Arithmetic
import SymbolicKernel.Proofs.Number.Rounding
import SymbolicKernel.Proofs.Number.Written

/-!
Numbers of one kind and of opposite values. Magnitudes are what is rounded, to digits as well as to doubles, so two
numbers that are opposite are rounded to opposite ones.
-/
namespace SymbolicKernel

/-- Two calculations that either both fail, with errors that are alike, or both succeed, with results that are
related. -/
inductive Except.Related {ε α β : Type} (Alike : ε → ε → Prop) (R : α → β → Prop) : Except ε α → Except ε β → Prop
  | error {e e' : ε} : Alike e e' → Related Alike R (.error e) (.error e')
  | ok {a : α} {b : β} : R a b → Related Alike R (.ok a) (.ok b)

namespace Except.Related

variable {ε ε' α α' β β' : Type} {Alike : ε → ε → Prop} {Alike' : ε' → ε' → Prop} {R : α → β → Prop} {S : α' → β' → Prop}
  {x : Except ε α} {y : Except ε β}

theorem bind (related : Related Alike R x y) {f : α → Except ε α'} {g : β → Except ε β'}
    (next : ∀ a b, R a b → Related Alike S (f a) (g b)) : Related Alike S (x >>= f) (y >>= g) := by
  cases related with
  | error alike => exact .error alike
  | ok here => exact next _ _ here

theorem map (related : Related Alike R x y) {f : α → α'} {g : β → β'} (mapped : ∀ a b, R a b → S (f a) (g b)) :
    Related Alike S (x.map f) (y.map g) := by
  cases related with
  | error alike => exact .error alike
  | ok here => exact .ok (mapped _ _ here)

theorem mapError (related : Related Alike R x y) {f : ε → ε'} (mapped : ∀ e e', Alike e e' → Alike' (f e) (f e')) :
    Related Alike' R (x.mapError f) (y.mapError f) := by
  cases related with
  | error alike => exact .error (mapped _ _ alike)
  | ok here => exact .ok here

end Except.Related

/-- Errors of one kind: they differ at most in the text that they name. -/
def NumberError.SameKind : NumberError → NumberError → Prop
  | .malformedLiteral _, .malformedLiteral _ => True
  | e, e' => e = e'

theorem NumberError.SameKind.refl (e : NumberError) : e.SameKind e := by
  cases e <;> simp [NumberError.SameKind]

namespace MachineReal

def Opposite (x y : MachineReal) : Prop := y.toRat = -x.toRat

theorem toRat_neg (x : MachineReal) : x.neg.toRat = -x.toRat := by
  rw [toRat_eq_codeValue, toRat_eq_codeValue, neg]
  cases x.negative <;> simp

/-- Two roundings of opposite numbers are both finite or both infinite. -/
theorem ofDouble_opposite {x y : Double} {v : ℚ} (first : x.Rounds v) (second : y.Rounds (-v)) :
    Except.Related NumberError.SameKind Opposite (ofDouble x) (ofDouble y) := by
  rcases lt_or_ge |v| overflowBound with small | large
  · obtain ⟨a, rfl⟩ := first.exists_finite small
    obtain ⟨b, rfl⟩ := second.exists_finite (by rwa [abs_neg])
    have value := sameValue_iff.mp (second.equal first.neg)
    rw [toRat_neg] at value
    exact .ok value
  · rw [first.eq_infinite large, second.eq_infinite (by rwa [abs_neg])]
    exact .error (.refl .overflow)

end MachineReal

/-- Opposite numbers, written with one exponent. -/
structure WrittenDecimal.Opposite (w w' : WrittenDecimal) : Prop where
  significand_eq : w'.significand = -w.significand
  exponent_eq : w'.exponent = w.exponent

namespace Decimal

theorem neg_normal (x : Decimal) : Normal (-x.significand) x.exponent := by
  have normal := x.normal
  unfold Normal at normal ⊢
  split at normal <;> split <;> omega

def neg (x : Decimal) : Decimal :=
  ⟨-x.significand, x.exponent, x.precision, x.neg_normal⟩

theorem toRat_neg (x : Decimal) : x.neg.toRat = -x.toRat := by
  rw [toRat_eq, toRat_eq, neg, Int.cast_neg, neg_mul]

theorem digits_neg (x : Decimal) : x.neg.digits = x.digits := by
  rw [digits, digits, neg, Int.natAbs_neg]

theorem ofParts_neg (significand exponent : ℤ) : ofParts (-significand) exponent = (ofParts significand exponent).neg := by
  apply eq_of_toRat_eq
  · rw [toRat_neg, toRat_ofParts, toRat_ofParts, Int.cast_neg, neg_mul]
  · simp only [neg, ofParts, ofScaled, Int.natAbs_neg]

/-- Magnitudes are what is rounded. -/
theorem withPrecision_neg (x : Decimal) (precision : ℕ) : x.neg.withPrecision precision = (x.withPrecision precision).neg := by
  apply eq_of_toRat_eq
  · have same : x.neg.Roundable precision ↔ x.Roundable precision := by rw [Roundable, Roundable, digits_neg, neg]
    rcases Nat.eq_zero_or_pos precision with rfl | pos
    · simp only [withPrecision, lt_irrefl, false_and, if_false]
      rfl
    · rw [toRat_neg]
      by_cases roundable : x.Roundable precision
      · rw [toRat_withPrecision pos (same.mpr roundable), toRat_withPrecision pos roundable, toRat_neg, roundDigits_neg]
      · rw [toRat_withPrecision_of_not_roundable (same.not.mpr roundable),
          toRat_withPrecision_of_not_roundable roundable, toRat_neg]
  · simp only [neg, withPrecision_precision]

theorem raisedFrom_neg (exponent : ℤ) (x : Decimal) : x.neg.raisedFrom exponent = (x.raisedFrom exponent).neg := by
  rw [raisedFrom, raisedFrom]
  split <;> rfl

theorem ofWritten_neg {w w' : WrittenDecimal} (opposite : w.Opposite w') : ofWritten w' = (ofWritten w).neg := by
  rw [ofWritten, opposite.significand_eq, opposite.exponent_eq, ofParts_neg, raisedFrom_neg, ofWritten]

end Decimal

namespace PrecisionReal

/-- Opposite values, known to the same precision. -/
structure Opposite (r s : PrecisionReal) : Prop where
  bits_eq : s.bits = r.bits
  toRat_eq : s.toRat = -r.toRat

/-- The exponent is the same with either sign, and so is what 64 bits keep of it. -/
theorem ofWritten_opposite {w w' : WrittenDecimal} (opposite : w.Opposite w') (bits : ℕ) :
    (ofWritten w bits).Opposite (ofWritten w' bits) := by
  refine ⟨rfl, ?_⟩
  rw [toRat, ofWritten, Decimal.ofWritten_neg opposite, Decimal.withPrecision_neg, opposite.exponent_eq,
    Decimal.raisedFrom_neg, Decimal.toRat_neg, toRat, ofWritten]

/-- The division is carried to the same number of digits, whatever the sign. -/
theorem ofRat_opposite (x : ℚ) (digits : ℕ) : (ofRat x digits).Opposite (ofRat (-x) digits) := by
  refine ⟨rfl, ?_⟩
  rw [toRat_ofRat, toRat_ofRat, digits_ofRat, digits_ofRat, slack_neg, lastPlace_neg, roundRaised_neg]

end PrecisionReal

/-- Two reals of one kind and, if they have a precision, of one precision, whose values are opposite. Zero is opposite
to itself, whatever its sign. -/
inductive RealNumber.Opposite : RealNumber → RealNumber → Prop
  | integer (n : ℤ) : Opposite (.integer n) (.integer (-n))
  | rational (x : ℚ) : Opposite (.rational x) (.rational (-x))
  | machine {x y : MachineReal} : x.Opposite y → Opposite (.machine x) (.machine y)
  | precise {r s : PrecisionReal} : r.Opposite s → Opposite (.precise r) (.precise s)

end SymbolicKernel

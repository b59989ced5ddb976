import SymbolicKernel.Proofs.Decimal.Digits
import SymbolicKernel.Proofs.Lowering.Numbers
import SymbolicKernel.Proofs.Number.Written
import SymbolicKernel.Proofs.Precision

/-!
How many digits a real of some precision has. It has no more than its precision is worth exactly when the decimal that it
was made of is `Roundable` to so many: more precise, or of no more digits. Any other decimal, such as a longer one of
unlimited precision, is stored without being rounded. Main statement: `digits_within_precision_iff_roundable`.
-/
namespace SymbolicKernel

open Interning

namespace PrecisionReal

/-- The value is as precise as the digits that the bits are worth, and has no more of them. -/
structure IsRounded (r : PrecisionReal) : Prop where
  precision_eq : r.value.precision = r.digits
  digits_le : r.value.digits ≤ r.digits

variable {r : PrecisionReal} {value : Decimal} {bits digits : ℕ}

theorem isRounded_ofDecimal (roundable : value.Roundable (Precision.bitsToDigits bits)) :
    (ofDecimal value bits).IsRounded := by
  have few := (Decimal.digits_withPrecision_le_iff (Precision.bitsToDigits_pos bits)).mpr roundable
  exact ⟨Decimal.withPrecision_precision _ _, few⟩

theorem isRounded_ofParts (significand exponent : ℤ) (bits : ℕ) :
    (ofDecimal (.ofParts significand exponent) bits).IsRounded :=
  isRounded_ofDecimal (Decimal.roundable_of_digits_le (Decimal.digits_ofParts_le _ _) _)

theorem isRounded_ofRat (x : ℚ) (digits bits : ℕ) : (ofDecimal (.ofRat x digits) bits).IsRounded := by
  apply isRounded_ofDecimal
  apply Decimal.roundable_of_digits_le
  rw [Decimal.ofRat_precision]
  exact Decimal.digits_ofRat_le x digits

theorem isRounded_ofWritten (w : WrittenDecimal) (bits : ℕ) : (ofWritten w bits).IsRounded := by
  have roundable := Decimal.roundable_of_digits_le (Decimal.digits_ofWritten_le w) (Precision.bitsToDigits bits)
  have few := (Decimal.digits_withPrecision_le_iff (Precision.bitsToDigits_pos bits)).mpr roundable
  constructor
  · simp only [ofWritten, Decimal.raisedFrom_precision, Decimal.withPrecision_precision, digits]
  · simpa only [ofWritten, Decimal.raisedFrom_digits, digits] using few

theorem isRounded_ofText {text : String} (made : ofText text digits = .ok r) : r.IsRounded := by
  obtain ⟨x, _, rfl⟩ := Except.map_ok_iff.mp made
  exact isRounded_ofWritten _ _

/-- To fewer digits than its own, a real is rounded, since its value is as precise as its digits. -/
theorem IsRounded.toPrecise (rounded : r.IsRounded) (digits : ℕ) : (RealNumber.toPrecise digits (.precise r)).IsRounded := by
  obtain ⟨precision, few⟩ := rounded
  rw [RealNumber.toPrecise]
  split
  · exact ⟨precision, few⟩
  · have pos : 0 < r.digits := Precision.bitsToDigits_pos r.bits
    apply isRounded_ofDecimal
    rw [Decimal.Roundable, Precision.bitsToDigits_digitsToBits]
    omega

end PrecisionReal

/-- The decimal that a real is made of, if it is made of one, can be rounded to the precision it is made to. -/
def RealSource.Roundable (source : RealSource) (bits : Option ℕ) : Prop :=
  match source with
  | .decimal x => x.Roundable (Precision.bitsToDigits (bits.getD source.defaultBits))
  | _ => True

namespace RealNumber

/-- Of the four kinds of reals, only those of high precision have digits to be bounded. -/
def IsRounded : RealNumber → Prop
  | precise r => r.IsRounded
  | _ => True

variable {x y : RealNumber} {digits bits : Option ℕ} {source : RealSource}

theorem isRounded_toPrecise (rounded : x.IsRounded) (digits : ℕ) : (x.toPrecise digits).IsRounded := by
  cases x with
  | integer n => exact PrecisionReal.isRounded_ofParts n 0 _
  | rational x => exact PrecisionReal.isRounded_ofRat x digits _
  | machine x => exact PrecisionReal.isRounded_ofRat x.toRat digits _
  | precise r => exact PrecisionReal.IsRounded.toPrecise rounded digits

theorem isRounded_coerce (rounded : x.IsRounded) (made : x.coerce digits = .ok y) : y.IsRounded := by
  cases digits with
  | none =>
    obtain ⟨m, _, rfl⟩ := Except.map_ok_iff.mp made
    trivial
  | some digits =>
    cases made
    exact isRounded_toPrecise rounded digits

theorem isRounded_toReal (roundable : source.Roundable bits) (made : source.toReal bits = .ok x) : x.IsRounded := by
  simp only [RealSource.toReal] at made
  split at made
  · obtain ⟨r, built, rfl⟩ := Except.map_ok_iff.mp made
    cases source with
    | text text =>
      obtain ⟨w, _, rfl⟩ := Except.map_ok_iff.mp built
      exact PrecisionReal.isRounded_ofWritten w _
    | decimal value =>
      cases built
      exact PrecisionReal.isRounded_ofDecimal roundable
    | double d =>
      obtain ⟨m, _, built⟩ := Except.bind_ok_iff.mp built
      obtain ⟨w, _, built⟩ := Except.bind_ok_iff.mp built
      cases built
      exact PrecisionReal.isRounded_ofWritten w _
    | integer n =>
      cases built
      exact PrecisionReal.isRounded_ofParts n 0 _
    | rational q =>
      cases built
      exact PrecisionReal.isRounded_ofRat q _ _
  · obtain ⟨m, _, rfl⟩ := Except.map_ok_iff.mp made
    trivial

end RealNumber

namespace Number

def IsRounded : Number → Prop
  | real x => x.IsRounded
  | complex re im => re.IsRounded ∧ im.IsRounded

/-- A real of high precision is the number or one of its parts. -/
def Holds (r : PrecisionReal) : Number → Prop
  | real x => x = .precise r
  | complex re im => re = .precise r ∨ im = .precise r

theorem IsRounded.holds {n : Number} {r : PrecisionReal} (rounded : n.IsRounded) (inside : n.Holds r) : r.IsRounded := by
  cases n with
  | real x =>
    obtain rfl := inside
    exact rounded
  | complex re im =>
    obtain rfl | rfl := inside
    · exact rounded.1
    · exact rounded.2

/-- The numbers that can be made, of decimals that can be rounded to the precision asked for. -/
inductive Built : Number → Prop
  | integer (n : ℤ) : Built (.integer n)
  | rational (x : ℚ) : Built (.real (.rational x))
  | machine (x : MachineReal) : Built (.real (.machine x))
  | ofDecimal {value : Decimal} {bits : ℕ} :
      value.Roundable (Precision.bitsToDigits bits) → Built (.real (.precise (.ofDecimal value bits)))
  | withDigits {value : Decimal} {digits : ℕ} :
      value.Roundable (Precision.bitsToDigits (Precision.digitsToBits digits)) →
      Built (.real (.precise (.withDigits value digits)))
  | ofText {text : String} {digits : ℕ} {r : PrecisionReal} :
      PrecisionReal.ofText text digits = .ok r → Built (.real (.precise r))
  | ofRat (x : ℚ) (digits : ℕ) : Built (.real (.precise (.ofRat x digits)))
  | toReal {source : RealSource} {bits : Option ℕ} {x : RealNumber} :
      source.Roundable bits → source.toReal bits = .ok x → Built (.real x)
  | ofParts {re im n : Number} : Built re → Built im → Number.ofParts re im = .ok n → Built n
  | coerce {n m : Number} {digits : Option ℕ} : Built n → n.coerce digits = .ok m → Built m
  | lower {resolver : Resolver} {t : Tree} {table after : SymbolTable} {e : Expr} {n : Number} :
      perform (t.lower resolver) table = (.ok e, after) → n ∈ e.numbers → Built n

variable {n m : Number} {re im : RealNumber}

theorem isRounded_ofReals (left : re.IsRounded) (right : im.IsRounded) (made : ofReals re im = .ok n) :
    n.IsRounded := by
  unfold ofReals at made
  split_ifs at made
  · cases made
    exact left
  · obtain ⟨x, _, rfl⟩ := Except.map_ok_iff.mp made
    exact ⟨left, trivial⟩
  · obtain ⟨x, _, rfl⟩ := Except.map_ok_iff.mp made
    exact ⟨trivial, right⟩
  · cases made
    exact ⟨left, right⟩

theorem isRounded_toPart (rounded : n.IsRounded) (made : n.toPart = .ok re) : re.IsRounded := by
  cases n with
  | real x =>
    cases made
    exact rounded
  | complex re im => cases made

theorem isRounded_coerce {digits : Option ℕ} (rounded : n.IsRounded) (made : n.coerce digits = .ok m) :
    m.IsRounded := by
  cases n with
  | real x =>
    obtain ⟨y, coerced, rfl⟩ := Except.map_ok_iff.mp made
    exact RealNumber.isRounded_coerce rounded coerced
  | complex re im =>
    obtain ⟨re', left, made⟩ := Except.bind_ok_iff.mp made
    obtain ⟨im', right, made⟩ := Except.bind_ok_iff.mp made
    exact isRounded_ofReals (RealNumber.isRounded_coerce rounded.1 left) (RealNumber.isRounded_coerce rounded.2 right) made

theorem isRounded_ofDraft (lowered : n.OfDraft) : n.IsRounded := by
  cases lowered with
  | integer n => trivial
  | rational x => trivial
  | machine x => trivial
  | @precise source digits r made =>
    cases source with
    | text text => exact PrecisionReal.isRounded_ofText made
    | ratio p q =>
      obtain ⟨x, _, rfl⟩ := Except.map_ok_iff.mp made
      exact PrecisionReal.isRounded_ofRat x digits _

/-- Every way of making a number keeps the digits of its real parts within their precision. -/
theorem Built.isRounded (built : n.Built) : n.IsRounded := by
  induction built with
  | integer n => trivial
  | rational x => trivial
  | machine x => trivial
  | ofDecimal roundable => exact PrecisionReal.isRounded_ofDecimal roundable
  | withDigits roundable => exact PrecisionReal.isRounded_ofDecimal roundable
  | ofText made => exact PrecisionReal.isRounded_ofText made
  | ofRat x digits => exact PrecisionReal.isRounded_ofRat x digits _
  | toReal roundable made => exact RealNumber.isRounded_toReal roundable made
  | ofParts _ _ made left right =>
    obtain ⟨re, fromLeft, made⟩ := Except.bind_ok_iff.mp made
    obtain ⟨im, fromRight, made⟩ := Except.bind_ok_iff.mp made
    exact isRounded_ofReals (isRounded_toPart left fromLeft) (isRounded_toPart right fromRight) made
  | coerce _ made ih => exact isRounded_coerce ih made
  | lower made member => exact isRounded_ofDraft (Tree.lower_numbers made _ member)

end Number

/-- A real of high precision holds its decimal rounded, half away from zero, to the digits that its precision is worth
exactly when the decimal is more precise than that or has no more digits, and only then has it no more digits itself. A
decimal that is at least as precise as it is long can be rounded to any number of digits. One that cannot is held with
all its digits. The numbers that are made of decimals that can be rounded, or of anything else, have their digits within
their precision. -/
theorem digits_within_precision_iff_roundable (value : Decimal) (bits : ℕ) :
    ((PrecisionReal.ofDecimal value bits).toRat = roundDigits (Precision.bitsToDigits bits) value.toRat ↔
      value.Roundable (Precision.bitsToDigits bits)) ∧
    ((PrecisionReal.ofDecimal value bits).value.digits ≤ Precision.bitsToDigits bits ↔
      value.Roundable (Precision.bitsToDigits bits)) ∧
    (¬ value.Roundable (Precision.bitsToDigits bits) → (PrecisionReal.ofDecimal value bits).toRat = value.toRat) ∧
    (value.digits ≤ value.precision → value.Roundable (Precision.bitsToDigits bits)) ∧
    ∀ n : Number, n.Built → ∀ r, n.Holds r → r.value.digits ≤ r.digits := by
  have pos := Precision.bitsToDigits_pos bits
  refine ⟨Decimal.toRat_withPrecision_eq_iff pos, Decimal.digits_withPrecision_le_iff pos, ?_, ?_, ?_⟩
  · exact Decimal.toRat_withPrecision_of_not_roundable
  · exact fun limited => Decimal.roundable_of_digits_le limited _
  · intro n built r inside
    exact (built.isRounded.holds inside).digits_le

theorem digits_within_precision_iff_roundable_of_nine_digits :
    let limited := Decimal.ofParts 123456789 3
    let unlimited := limited.withPrecision 0
    let coarse := RealNumber.toPrecise 3 (.precise (.withDigits limited 7))
    (limited.digits ≤ limited.precision ∧ limited.Roundable (Precision.bitsToDigits 17)) ∧
      (¬ unlimited.Roundable (Precision.bitsToDigits 17) ∧
        (PrecisionReal.ofDecimal unlimited 17).toRat = unlimited.toRat) ∧
      (Number.real (.precise coarse)).Built ∧ (Number.real (.precise coarse)).Holds coarse ∧
      coarse.value.digits ≤ coarse.digits := by
  intro limited unlimited coarse
  have few : limited.digits ≤ limited.precision := by decide +kernel
  have wide : ¬ unlimited.Roundable (Precision.bitsToDigits 17) := by decide +kernel
  have fine : (Number.real (.precise (.withDigits limited 7))).Built := .withDigits (Decimal.roundable_of_digits_le few _)
  have coarsened : (Number.real (.precise (.withDigits limited 7))).coerce (some 3) = .ok (.real (.precise coarse)) := rfl
  have built := fine.coerce coarsened
  obtain ⟨_, _, _, roundable, within⟩ := digits_within_precision_iff_roundable limited 17
  obtain ⟨_, _, kept, _⟩ := digits_within_precision_iff_roundable unlimited 17
  exact ⟨⟨few, roundable few⟩, ⟨wide, kept wide⟩, built, rfl, within _ built coarse rfl⟩

/-- A quotient can have one digit more than it is precise. -/
example : (Decimal.quotient 2 13 20).digits = 21 ∧ ¬ (Decimal.quotient 2 13 20).Roundable 20 := by decide +kernel

/-- All five digits of an unlimited decimal are stored in thirteen bits, which are worth three. -/
theorem PrecisionReal.ofDecimal_keeps_unlimited_digits :
    let value := (Decimal.ofParts 12345 (-4)).withPrecision 0
    (ofDecimal value 13).digits = 3 ∧ (ofDecimal value 13).value.digits = 5 ∧
      (ofDecimal value 13).toRat ≠ roundDigits 3 value.toRat := by
  intro value
  have worth : Precision.bitsToDigits 13 = 3 := by decide +kernel
  have wide : ¬ value.Roundable 3 := by decide +kernel
  refine ⟨worth, by decide +kernel, ?_⟩
  rw [← Decimal.toRat_withPrecision_eq_iff (by decide), ← worth] at wide
  rw [← worth]
  exact wide

end SymbolicKernel

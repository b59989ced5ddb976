import SymbolicKernel.Number.Basic
import SymbolicKernel.Proofs.Decimal.Rounding
import SymbolicKernel.Proofs.Literal.Classification
import SymbolicKernel.Proofs.Precision

/-!
To coerce a number to digits or to machine reals is to settle it: doing so again changes nothing. Main statement:
`coerce_settles_on_digits`, which also says on how many digits each real part settles.
-/
namespace SymbolicKernel

namespace Decimal

/-- A decimal that is as precise as asked for is left as it is, however long its significand. -/
theorem withPrecision_self (x : Decimal) : x.withPrecision x.precision = x := by
  have kept : ¬ (0 < x.precision ∧ x.precision < x.precision ∧ x.precision < x.digits) := by omega
  rw [withPrecision, if_neg kept]

theorem withPrecision_withPrecision (x : Decimal) (precision : ℕ) :
    (x.withPrecision precision).withPrecision precision = x.withPrecision precision := by
  have again := withPrecision_self (x.withPrecision precision)
  rwa [withPrecision_precision] at again

end Decimal

namespace PrecisionReal

theorem digits_withDigits (value : Decimal) (digits : ℕ) :
    (withDigits value digits).digits = max 1 (min digits Precision.maxDigits) :=
  Precision.bitsToDigits_digitsToBits digits

theorem withDigits_value_withDigits (value : Decimal) (digits : ℕ) :
    withDigits (withDigits value digits).value digits = withDigits value digits := by
  simp only [withDigits, ofDecimal, Decimal.withPrecision_withPrecision]

end PrecisionReal

namespace RealNumber

variable {x y : RealNumber} {target : Option ℕ}

/-- To a number of digits, a real is stored anew, or it has no more of them and is kept. -/
theorem toPrecise_cases (digits : ℕ) (x : RealNumber) :
    (∃ value, x.toPrecise digits = .withDigits value digits) ∨
      ∃ own, x = .precise own ∧ own.digits ≤ digits ∧ x.toPrecise digits = own := by
  cases x with
  | integer n => exact .inl ⟨_, rfl⟩
  | rational q => exact .inl ⟨_, rfl⟩
  | machine m => exact .inl ⟨_, rfl⟩
  | precise own =>
    rw [toPrecise]
    split
    · rename_i few
      exact .inr ⟨own, rfl, few, rfl⟩
    · exact .inl ⟨_, rfl⟩

/-- Zero digits ask for one, so a real stored to them is stored once more, but of a decimal that is that precise. -/
theorem toPrecise_toPrecise (digits : ℕ) (x : RealNumber) :
    toPrecise digits (.precise (x.toPrecise digits)) = x.toPrecise digits := by
  obtain ⟨value, stored⟩ | ⟨own, rfl, few, kept⟩ := x.toPrecise_cases digits
  · rw [stored, toPrecise]
    split
    · rfl
    · exact PrecisionReal.withDigits_value_withDigits value digits
  · rw [kept, toPrecise, if_pos few]

theorem coerce_coerce (made : x.coerce target = .ok y) : y.coerce target = .ok y := by
  cases target with
  | none =>
    obtain ⟨m, _, rfl⟩ := Except.map_ok_iff.mp made
    rfl
  | some digits =>
    cases made
    rw [coerce]
    simp only [toPrecise_toPrecise]

/-- What a real is to a number of digits: exact numbers and machine reals have just these, at least one, and a real of
limited precision has no more than before. One that has few enough is not touched. -/
def SettlesOn (digits : ℕ) (x y : RealNumber) : Prop :=
  ∃ r, y = .precise r ∧
    match x with
    | .integer _ | .rational _ | .machine _ => r.digits = max digits 1
    | .precise own => r.digits = min own.digits (max digits 1) ∧
        (own.digits ≤ digits → r.value = own.value ∧ r.bits = own.bits)

theorem settlesOn_toPrecise {digits : ℕ} (few : digits ≤ Precision.maxDigits) (x : RealNumber) :
    x.SettlesOn digits (.precise (x.toPrecise digits)) := by
  have asked (value : Decimal) : (PrecisionReal.withDigits value digits).digits = max digits 1 := by
    rw [PrecisionReal.digits_withDigits]
    omega
  refine ⟨_, rfl, ?_⟩
  cases x with
  | integer n => exact asked _
  | rational q => exact asked _
  | machine m => exact asked _
  | precise own =>
    have some : 0 < own.digits := Precision.bitsToDigits_pos own.bits
    by_cases kept : own.digits ≤ digits
    · rw [toPrecise, if_pos kept]
      exact ⟨by omega, fun _ => ⟨rfl, rfl⟩⟩
    · rw [toPrecise, if_neg kept]
      refine ⟨?_, fun few => absurd few kept⟩
      rw [asked]
      omega

end RealNumber

namespace Number

variable {n m : Number} {re im re' im' : RealNumber} {target : Option ℕ}

/-- The real numbers that a number consists of. -/
def parts : Number → List RealNumber
  | real x => [x]
  | complex re im => [re, im]

/-- Parts that were coerced are of one kind, and none is an exact zero, so they are joined as they are. -/
theorem ofReals_coerced (left : re.coerce target = .ok re') (right : im.coerce target = .ok im') :
    ofReals re' im' = .ok (complex re' im') := by
  cases target with
  | none =>
    obtain ⟨x, _, rfl⟩ := Except.map_ok_iff.mp left
    obtain ⟨y, _, rfl⟩ := Except.map_ok_iff.mp right
    rfl
  | some digits =>
    cases left
    cases right
    rfl

theorem coerce_complex_ok_iff :
    (complex re im).coerce target = .ok m ↔
      ∃ re' im', re.coerce target = .ok re' ∧ im.coerce target = .ok im' ∧ m = complex re' im' := by
  constructor
  · intro made
    obtain ⟨re', left, made⟩ := Except.bind_ok_iff.mp made
    obtain ⟨im', right, made⟩ := Except.bind_ok_iff.mp made
    rw [ofReals_coerced left right] at made
    cases made
    exact ⟨re', im', left, right, rfl⟩
  · rintro ⟨re', im', left, right, rfl⟩
    refine Except.bind_ok_iff.mpr ⟨re', left, ?_⟩
    exact Except.bind_ok_iff.mpr ⟨im', right, ofReals_coerced left right⟩

theorem coerce_coerce (made : n.coerce target = .ok m) : m.coerce target = .ok m := by
  cases n with
  | real x =>
    obtain ⟨y, coerced, rfl⟩ := Except.map_ok_iff.mp made
    exact Except.map_ok_iff.mpr ⟨y, RealNumber.coerce_coerce coerced, rfl⟩
  | complex re im =>
    obtain ⟨re', im', left, right, rfl⟩ := coerce_complex_ok_iff.mp made
    exact coerce_complex_ok_iff.mpr
      ⟨re', im', RealNumber.coerce_coerce left, RealNumber.coerce_coerce right, rfl⟩

/-- To as many digits as can be counted in bits, every number can be coerced, part by part. -/
theorem coerce_settlesOn {digits : ℕ} (few : digits ≤ Precision.maxDigits) (n : Number) :
    ∃ m, n.coerce (some digits) = .ok m ∧ List.Forall₂ (RealNumber.SettlesOn digits) n.parts m.parts := by
  cases n with
  | real x => exact ⟨_, rfl, .cons (x.settlesOn_toPrecise few) .nil⟩
  | complex re im =>
    refine ⟨_, coerce_complex_ok_iff.mpr ⟨_, _, rfl, rfl, rfl⟩, ?_⟩
    exact .cons (re.settlesOn_toPrecise few) (.cons (im.settlesOn_toPrecise few) .nil)

/-- A number that was coerced to digits or to machine reals is left as it is by the same conversion, whatever digits
were asked for. Up to a billion digits, and far beyond, every number can be coerced, and each of its real parts then
has the digits asked for, at least one, unless it was of a lower precision before, which it keeps. -/
theorem coerce_settles_on_digits (n : Number) :
    (∀ target m, n.coerce target = .ok m → m.coerce target = .ok m) ∧
      ∀ digits ≤ 10 ^ 9, ∃ m, n.coerce (some digits) = .ok m ∧
        List.Forall₂ (RealNumber.SettlesOn digits) n.parts m.parts := by
  constructor
  · intro target m made
    exact coerce_coerce made
  · intro digits few
    have countable : 10 ^ 9 ≤ Precision.maxDigits := by decide
    exact coerce_settlesOn (few.trans countable) n

/-- A real of nine digits beside one of twenty, to twelve digits: the first is kept and the second is rounded. -/
theorem coerce_settles_on_digits_of_nine_and_twenty :
    let n := complex (.precise (.ofRat (1 / 7) 9)) (.precise (.ofRat (2 / 3) 20))
    let settled := complex (.precise (.ofRat (1 / 7) 9))
      (.precise (.withDigits (PrecisionReal.ofRat (2 / 3) 20).value 12))
    n.coerce (some 12) = .ok settled ∧ settled.coerce (some 12) = .ok settled ∧ 12 ≤ 10 ^ 9 ∧
      ∃ m, n.coerce (some 12) = .ok m ∧ List.Forall₂ (RealNumber.SettlesOn 12) n.parts m.parts := by
  intro n settled
  have nine : (PrecisionReal.ofRat (1 / 7) 9).digits ≤ 12 := by decide +kernel
  have twenty : ¬ (PrecisionReal.ofRat (2 / 3) 20).digits ≤ 12 := by decide +kernel
  have made : n.coerce (some 12) = .ok settled := by
    apply coerce_complex_ok_iff.mpr
    refine ⟨_, _, rfl, rfl, ?_⟩
    simp only [settled, RealNumber.toPrecise, if_pos nine, if_neg twenty]
  obtain ⟨again, lands⟩ := coerce_settles_on_digits n
  exact ⟨made, again _ _ made, by decide, lands 12 (by decide)⟩

end Number

end SymbolicKernel

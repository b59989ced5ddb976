import SymbolicKernel.Proofs.Decimal.Reader
import SymbolicKernel.Proofs.Double.Arithmetic
import SymbolicKernel.Proofs.Number.Rounding
import SymbolicKernel.Proofs.Number.Written

/-!
A whole number becomes one and the same real in whichever form it arrives: as an integer, as a quotient by one, in its
digits or as a decimal. Main statement: `RealSource.toReal_of_whole`.
-/
namespace SymbolicKernel

namespace WrittenDecimal

theorem ofText_repr (n : ℤ) : ofText n.repr = .ok ⟨n, 0⟩ := by
  have digits := Numeral.isDigit_decimalDigits n.natAbs
  have nonempty := Numeral.decimalDigits_ne_nil n.natAbs
  rw [← List.append_nil (Numeral.decimalDigits n.natAbs)] at digits nonempty
  have read := ofText_mantissa (n < 0) (.whole _) nonempty digits
  rw [← Numeral.repr_toList, String.ofList_toList, List.append_nil, Numeral.valueOf_decimalDigits,
    Numeral.withSign_natAbs] at read
  exact read

end WrittenDecimal

namespace Decimal

theorem toDouble_eq_ofRat (x : Decimal) : x.toDouble = Double.ofRat x.toRat := by
  rw [toDouble, Double.ofDecimal_eq_ofRat, toRat_eq]

/-- The division by one is carried to more digits than the number has, so only the rounding to the digits asked for
can change it. -/
theorem toRat_ofRat_intCast (n : ℤ) (digits : ℕ) : (ofRat n digits).toRat = roundDigits (max digits 1) n := by
  have value : (ofParts n 0).toRat = n := by rw [toRat_ofParts, zpow_zero, mul_one]
  have written : (ofParts n 0).digits ≤ Numeral.writtenLength n.natAbs := digits_ofParts_le n 0
  have carried := le_quotientDigits (n : ℚ).num (n : ℚ).den
    (max (max digits 1) (max (Numeral.writtenLength (n : ℚ).num.natAbs) (Numeral.writtenLength (n : ℚ).den)) + 2)
  have enough : (ofParts n 0).digits ≤ workingDigits n digits := by
    rw [workingDigits]
    rw [Rat.num_intCast] at carried ⊢
    omega
  have exact := roundDigits_of_digits_le enough
  rw [value] at exact
  rw [toRat_ofRat, exact]

theorem withPrecision_ofRat_intCast (n : ℤ) {digits : ℕ} (pos : 0 < digits) :
    (ofRat n digits).withPrecision digits = (ofParts n 0).withPrecision digits := by
  have asked : max digits 1 = digits := by omega
  have limit : (ofRat n digits).precision ≤ digits := by rw [ofRat_precision, asked]
  apply eq_of_toRat_eq
  · rw [toRat_withPrecision_of_le limit, toRat_ofRat_intCast, asked, toRat_withPrecision_ofParts n 0 pos, zpow_zero,
      mul_one]
  · rw [withPrecision_precision, withPrecision_precision]

end Decimal

/-- The nearest double, unless it would be infinite. -/
theorem MachineReal.ofDouble_ofRat (x : ℚ) :
    overflowBound ≤ |x| ∧ ofDouble (Double.ofRat x) = .error .overflow ∨
      ∃ y, ofDouble (Double.ofRat x) = .ok y ∧ (Double.finite y).IsNearest x := by
  have nearest := (Double.Rounds.ofRat x).isNearest
  cases rounded : Double.ofRat x with
  | finite y =>
    rw [rounded] at nearest
    exact .inr ⟨y, rfl, nearest⟩
  | infinite negative =>
    rw [rounded] at nearest
    exact .inl ⟨nearest.1, rfl⟩
  | nan =>
    rw [rounded] at nearest
    exact nearest.elim

namespace RealSource

variable {n : ℤ} {bits : ℕ}

/-- The forms in which a whole number can arrive. -/
inductive IsWhole (n : ℤ) : RealSource → Prop
  | integer : IsWhole n (.integer n)
  | quotient : IsWhole n (.rational n)
  | digits : IsWhole n (.text n.repr)
  | decimal : IsWhole n (.decimal (.ofParts n 0))

theorem IsWhole.toPrecise {source : RealSource} (whole : source.IsWhole n) (bits : ℕ) :
    source.toPrecise bits = .ok (.ofDecimal (.ofParts n 0) bits) := by
  cases whole with
  | integer => rfl
  | quotient =>
    have rounded := Decimal.withPrecision_ofRat_intCast n (Precision.bitsToDigits_pos bits)
    rw [RealSource.toPrecise, PrecisionReal.ofDecimal, rounded, PrecisionReal.ofDecimal]
  | digits =>
    have kept : PrecisionReal.ofWritten ⟨n, 0⟩ bits = .ofDecimal (.ofParts n 0) bits :=
      PrecisionReal.ofWritten_of_fits (WrittenDecimal.fits_of_nonpos le_rfl _)
    rw [RealSource.toPrecise, WrittenDecimal.ofText_repr, ← kept]
    rfl
  | decimal => rfl

theorem IsWhole.toMachine {source : RealSource} (whole : source.IsWhole n) :
    source.toMachine = MachineReal.ofDouble (Double.ofRat n) := by
  have exact : Double.ofDecimal n 0 = Double.ofRat n := by rw [Double.ofDecimal_eq_ofRat, zpow_zero, mul_one]
  have decimal : MachineReal.ofDouble (Decimal.ofParts n 0).toDouble = MachineReal.ofDouble (Double.ofRat n) := by
    rw [Decimal.toDouble_eq_ofRat, Decimal.toRat_ofParts, zpow_zero, mul_one]
  cases whole with
  | integer => rw [RealSource.toMachine, Double.ofInt, exact]
  | quotient => rfl
  | digits =>
    have kept : Decimal.ofWritten ⟨n, 0⟩ = .ofParts n 0 :=
      Decimal.ofWritten_of_fits (WrittenDecimal.fits_of_nonpos le_rfl 0)
    rw [RealSource.toMachine, MachineReal.ofText, WrittenDecimal.ofText_repr, ← decimal, ← kept]
    rfl
  | decimal => exact decimal

/-- With a precision asked for, a whole number gives one result in all forms in which it can arrive. Above the
precision of machine reals this is a real of just these bits, the number rounded half away from zero to the digits that
they are worth; else it is the nearest machine real, or an overflow where that would be infinite. -/
theorem toReal_of_whole (n : ℤ) (bits : ℕ) :
    ∃ made, (∀ source : RealSource, source.IsWhole n → source.toReal (some bits) = made) ∧
      (Precision.machineBits < bits → ∃ r, made = .ok (.precise r) ∧ r.bits = bits ∧
        r.toRat = roundDigits (Precision.bitsToDigits bits) n) ∧
      (bits ≤ Precision.machineBits → overflowBound ≤ |(n : ℚ)| ∧ made = .error .overflow ∨
        ∃ x, made = .ok (.machine x) ∧ (Double.finite x).IsNearest n) := by
  refine ⟨toReal (.integer n) (some bits), ?_, ?_, ?_⟩
  · intro source whole
    simp only [toReal, Option.getD_some, whole.toPrecise, whole.toMachine, IsWhole.integer.toPrecise,
      IsWhole.integer.toMachine]
  · intro above
    refine ⟨.ofDecimal (.ofParts n 0) bits, ?_, rfl, ?_⟩
    · simp only [toReal, Option.getD_some, if_pos above, IsWhole.integer.toPrecise]
      rfl
    · rw [PrecisionReal.toRat_ofParts, zpow_zero, mul_one]
  · intro below
    simp only [toReal, Option.getD_some, if_neg (Nat.not_lt.mpr below), IsWhole.integer.toMachine]
    rcases MachineReal.ofDouble_ofRat n with ⟨large, failed⟩ | ⟨x, rounded, nearest⟩
    · rw [failed]
      exact .inl ⟨large, rfl⟩
    · rw [rounded]
      exact .inr ⟨x, rfl, nearest⟩

/-- Eighteen digits to the seventeen that sixty bits are worth, of which the last is tied, and to a machine real. -/
theorem toReal_of_whole_at_midpoint :
    Precision.machineBits < 60 ∧ 24 ≤ Precision.machineBits ∧
      (∃ r, (∀ source : RealSource, source.IsWhole (-123456789012345685) →
          source.toReal (some 60) = .ok (.precise r)) ∧ r.bits = 60 ∧ r.toRat = -123456789012345690) ∧
      ∃ x, (∀ source : RealSource, source.IsWhole (-123456789012345685) →
          source.toReal (some 24) = .ok (.machine x)) ∧
        (Double.finite x).IsNearest (-123456789012345685 : ℤ) := by
  have above : Precision.machineBits < 60 := by decide
  have below : 24 ≤ Precision.machineBits := by decide
  have worth : Precision.bitsToDigits 60 = 17 := by decide +kernel
  have rounded : ((Decimal.ofParts (-123456789012345685) 0).withPrecision 17).toRat = -123456789012345690 := by
    decide +kernel
  have small : |((-123456789012345685 : ℤ) : ℚ)| < overflowBound := by
    calc |((-123456789012345685 : ℤ) : ℚ)| < 2 ^ 60 := by norm_num
      _ ≤ 2 ^ 1023 := pow_le_pow_right₀ (by norm_num) (by norm_num)
      _ ≤ overflowBound := Double.two_pow_le_overflowBound
  obtain ⟨made, same, precise, _⟩ := toReal_of_whole (-123456789012345685) 60
  obtain ⟨made', same', _, machine⟩ := toReal_of_whole (-123456789012345685) 24
  obtain ⟨r, rfl, bits, value⟩ := precise above
  refine ⟨above, below, ⟨r, same, bits, ?_⟩, ?_⟩
  · rw [Decimal.toRat_withPrecision_ofParts _ _ (by decide), zpow_zero, mul_one] at rounded
    rw [value, worth, rounded]
  · rcases machine below with ⟨large, _⟩ | ⟨x, rfl, nearest⟩
    · exact absurd small (not_lt.mpr large)
    · exact ⟨x, same', nearest⟩

end RealSource

end SymbolicKernel

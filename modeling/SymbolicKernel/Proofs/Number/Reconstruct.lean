import SymbolicKernel.Proofs.Double.Rounded
import SymbolicKernel.Proofs.Number.Rounding
import SymbolicKernel.Number.Basic

/-!
Machine reals survive a detour over decimals of enough digits: seventeen of them are finer than the doubles are
apart, even after the two roundings by which a decimal is made.
-/
namespace SymbolicKernel

namespace PrecisionReal

theorem toDouble_rounds (x : PrecisionReal) : x.toDouble.Rounds x.toRat :=
  x.value.toDouble_rounds

theorem abs_toRat_ofRat_sub_le (x : ℚ) (digits : ℕ) :
    |(ofRat x digits).toRat - x| ≤ 111 / 200 * lastPlace (ofRat x digits).digits x := by
  have place := lastPlace_pos (ofRat x digits).digits x
  have small := two_hundred_mul_slack_le x digits
  have near := abs_roundRaised_sub_le (x := x) place (slack_nonneg x digits)
  rw [← toRat_ofRat] at near
  linarith

/-- A decimal of seventeen digits is off by less than half the distance to the next double. -/
theorem relative_error_ofRat_lt {x : ℚ} {digits : ℕ} (nonzero : x ≠ 0) (enough : 17 ≤ digits) :
    2 ^ 54 * |(ofRat x digits).toRat - x| < |x| := by
  have kept : 17 ≤ (ofRat x digits).digits := by
    have many : 17 ≤ Precision.maxDigits := by decide
    rw [digits_ofRat]
    omega
  have place := pow_mul_lastPlace_le 17 nonzero
  have near := abs_toRat_ofRat_sub_le x digits
  have fine := lastPlace_anti kept x
  have magnitude := abs_pos.mpr nonzero
  linarith

theorem sign_ofRat {x : ℚ} {digits : ℕ} (nonzero : x ≠ 0) (enough : 17 ≤ digits) :
    (ofRat x digits).toRat < 0 ↔ x < 0 := by
  have near := relative_error_ofRat_lt nonzero enough
  have close : |(ofRat x digits).toRat - x| < |x| := by
    have nonneg := abs_nonneg ((ofRat x digits).toRat - x)
    linarith
  rcases lt_or_gt_of_ne nonzero with neg | pos
  · rw [abs_of_neg neg, abs_lt] at close
    exact iff_of_true (by linarith) neg
  · rw [abs_of_pos pos, abs_lt] at close
    exact iff_of_false (by linarith) (by linarith)

theorem toRat_ofRat_zero (digits : ℕ) : (ofRat 0 digits).toRat = 0 := by
  rw [toRat_ofRat]
  simp [roundRaised]

theorem toDouble_ofRat_toRat (x : MachineReal) {digits : ℕ} (enough : 17 ≤ digits) :
    ∃ y : MachineReal, (ofRat x.toRat digits).toDouble = .finite y ∧ y.sameValue x = true := by
  have rounds := toDouble_rounds (ofRat x.toRat digits)
  by_cases zero : x.toRat = 0
  · have value := toRat_ofRat_zero digits
    have code := MachineReal.toRat_eq_zero_iff.mp zero
    rw [zero] at rounds ⊢
    apply rounds.sameValue_of_closest
    · rw [value, abs_zero, code]
      exact .zero
    · exact fun nonzero => absurd value nonzero
  · apply rounds.sameValue_of_closest
    · apply ClosestCode.of_relative_error
      have near := relative_error_ofRat_lt zero enough
      have reverse := x.abs_codeValue_sub_le (ofRat x.toRat digits).toRat
      rw [abs_sub_comm] at near
      rw [← x.abs_toRat] at reverse ⊢
      linarith
    · intro _
      rw [decide_eq_decide.mpr (sign_ofRat zero enough), x.negative_eq_decide zero]

end PrecisionReal

theorem Number.coerce_precise_of_toDouble {r : PrecisionReal} {y : MachineReal} (finite : r.toDouble = .finite y) :
    Number.coerce none (.real (.precise r)) = .ok (.real (.machine y)) := by
  have made : MachineReal.ofDouble r.toDouble = .ok y := by rw [finite]; rfl
  simp only [coerce, RealNumber.coerce, RealNumber.toMachine, RealNumber.toDouble, made, Except.map]

/-- Coercing a machine real to as many digits as tell doubles apart, or to more, and back to a machine real gives the
same number again. -/
theorem coerce_machine_to_digits_and_back (x : MachineReal) {digits : ℕ}
    (enough : Precision.reconstructDigits Precision.machineBits ≤ digits) :
    ∃ (r : PrecisionReal) (y : MachineReal),
      Number.coerce (some digits) (.real (.machine x)) = .ok (.real (.precise r)) ∧
      Number.coerce none (.real (.precise r)) = .ok (.real (.machine y)) ∧ y.sameValue x = true := by
  rw [Precision.reconstructDigits_machineBits] at enough
  obtain ⟨y, back, same⟩ := PrecisionReal.toDouble_ofRat_toRat x enough
  exact ⟨.ofRat x.toRat digits, y, rfl, Number.coerce_precise_of_toDouble back, same⟩

/-- The greatest of the negative doubles, at the fewest digits that are enough. -/
theorem coerce_machine_to_digits_and_back_of_least :
    let least : MachineReal := ⟨true, 1, by decide⟩
    Precision.reconstructDigits Precision.machineBits ≤ 17 ∧
      ∃ (r : PrecisionReal) (y : MachineReal),
        Number.coerce (some 17) (.real (.machine least)) = .ok (.real (.precise r)) ∧
        Number.coerce none (.real (.precise r)) = .ok (.real (.machine y)) ∧ y.sameValue least = true := by
  intro least
  have enough : Precision.reconstructDigits Precision.machineBits ≤ 17 := by decide +kernel
  exact ⟨enough, coerce_machine_to_digits_and_back least enough⟩

end SymbolicKernel

import SymbolicKernel.Proofs.Number.Coerce

/-!
A real of some precision is only ever coerced to a lower one, with one exception: no digits at all are worth three bits,
and these may be more than the real had. Main statement: `PrecisionReal.precision_not_raised_unless_no_digits`.
-/
namespace SymbolicKernel

theorem Precision.digitsToBits_zero : digitsToBits 0 = 3 := by decide +kernel

namespace RealNumber

variable {r : PrecisionReal} {digits : ℕ}

theorem digits_toPrecise_le (r : PrecisionReal) (digits : ℕ) : (toPrecise digits (.precise r)).digits ≤ r.digits := by
  have some : 0 < r.digits := Precision.bitsToDigits_pos r.bits
  rw [toPrecise]
  split
  · exact le_rfl
  · rw [PrecisionReal.digits_withDigits]
    omega

/-- A real always has a digit, so it is stored anew to none, which are worth three bits nevertheless. -/
theorem bits_toPrecise_zero (r : PrecisionReal) : (toPrecise 0 (.precise r)).bits = 3 := by
  have some : 0 < r.digits := Precision.bitsToDigits_pos r.bits
  rw [toPrecise, if_neg (Nat.not_le.mpr some), ← Precision.digitsToBits_zero]
  rfl

theorem bits_toPrecise_le (counted : r.bits ≤ Precision.maxCount) (pos : 0 < digits) :
    (toPrecise digits (.precise r)).bits ≤ r.bits := by
  rw [toPrecise]
  split
  · exact le_rfl
  · rename_i fewer
    exact Precision.digitsToBits_le_of_lt counted pos (not_le.mp fewer)

end RealNumber

namespace PrecisionReal

/-- Whatever digits a real is coerced to, it never has more of them than before, and its precision in bits is not raised
if any digits are asked for, or if it had three bits at least. Otherwise it is raised to three bits. -/
theorem precision_not_raised_unless_no_digits {r : PrecisionReal} (counted : r.bits ≤ Precision.maxCount) (digits : ℕ) :
    ∃ s : PrecisionReal, Number.coerce (some digits) (.real (.precise r)) = .ok (.real (.precise s)) ∧
      Number.precision (.real (.precise r)) = .ok r.bits ∧ Number.precision (.real (.precise s)) = .ok s.bits ∧
      s.digits ≤ r.digits ∧ (s.bits ≤ r.bits ↔ 0 < digits ∨ 3 ≤ r.bits) ∧ (r.bits < s.bits → s.bits = 3) := by
  refine ⟨RealNumber.toPrecise digits (.precise r), rfl, rfl, rfl, RealNumber.digits_toPrecise_le r digits, ?_⟩
  rcases Nat.eq_zero_or_pos digits with rfl | pos
  · rw [RealNumber.bits_toPrecise_zero]
    exact ⟨by omega, fun _ => rfl⟩
  · have bound := RealNumber.bits_toPrecise_le counted pos
    exact ⟨iff_of_true bound (.inl pos), fun raised => absurd bound (Nat.not_le.mpr raised)⟩

/-- Eleven digits in forty bits, cut to four digits in seventeen bits. -/
theorem precision_not_raised_unless_no_digits_of_eleven :
    let r := PrecisionReal.ofDecimal (.ofParts 12345678901 (-10)) 40
    r.bits ≤ Precision.maxCount ∧ ∃ s : PrecisionReal,
      Number.coerce (some 4) (.real (.precise r)) = .ok (.real (.precise s)) ∧ s.bits = 17 ∧ s.bits ≤ r.bits := by
  intro r
  have counted : r.bits ≤ Precision.maxCount := by decide
  obtain ⟨s, made, _, _, _, bound, _⟩ := precision_not_raised_unless_no_digits counted 4
  refine ⟨counted, s, made, ?_, bound.mpr (.inl (by decide))⟩
  cases made
  decide +kernel

/-- Five in two bits, which are worth one digit, is stored in three bits when it is coerced to no digits. -/
theorem coerce_to_no_digits_raises_precision :
    let n := Number.real (.precise (.ofDecimal (.ofParts 5 0) 2))
    n.precision = .ok 2 ∧ n.coerce (some 0) >>= Number.precision = .ok 3 ∧ ¬ 3 ≤ 2 := by
  decide +kernel

end PrecisionReal

end SymbolicKernel

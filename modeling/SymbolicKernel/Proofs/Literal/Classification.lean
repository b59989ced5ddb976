import SymbolicKernel.Proofs.Literal.Reading

/-!
What a number literal can become. Main statement: `toDraft_classified`, of which the facts about drafts of literals
are read off case by case.
-/
namespace SymbolicKernel

namespace Literal

/-- The double that the digits are read as, the sign put in front afterwards. -/
def decimalDouble (l : Literal) : Double :=
  let magnitude := Double.ofDecimal (Numeral.valueOf 10 (l.parts.1 ++ l.parts.2)) l.lastExponent
  if l.negative then magnitude.neg else magnitude

def signedText (l : Literal) : String := (if l.negative then "-" else "") ++ l.decimalText

/-- The drafts that a literal can become: an exact one without a point, an inexact one by its text in base ten and by
a quotient in any other base. -/
inductive Classified (l : Literal) : Draft → Prop
  | whole : l.hasPoint = false → 0 ≤ l.exponent →
      Classified l (.integer (l.significand * (l.base : Int) ^ l.exponent.natAbs))
  | quotient : l.hasPoint = false → l.exponent < 0 →
      Classified l (.rational l.significand ((l.base : Int) ^ l.exponent.natAbs))
  | decimalMachine : l.base = 10 → Classified l (.machine l.decimalDouble)
  | decimalPrecise (digits : Double) : l.base = 10 → Classified l (.precise (.text l.signedText) digits)
  | radixMachine : l.base ≠ 10 → Classified l (.machine (Double.ofRat (mkRat l.ratio.1 l.ratio.2.natAbs)))
  | radixPrecise (digits : Double) : l.base ≠ 10 → Classified l (.precise (.ratio l.ratio.1 l.ratio.2) digits)

variable {l : Literal} {d : Draft}

theorem power_ok {exponent power : Int} (made : l.power exponent = .ok power) :
    power = (l.base : Int) ^ exponent.natAbs := by
  unfold Literal.power at made
  split at made
  · cases made
    rfl
  · cases made

theorem exact_classified (wellFormed : l.isWellFormed = true) (point : l.hasPoint = false) (made : l.exact = .ok d) :
    l.Classified d := by
  rw [exact_eq wellFormed point] at made
  obtain ⟨power, built, rfl⟩ := Except.map_ok_iff.mp made
  obtain rfl := power_ok built
  split
  · rename_i neg
    exact .quotient point neg
  · rename_i nonneg
    exact .whole point (Int.not_lt.mp nonneg)

theorem decimalReal_classified (wellFormed : l.isWellFormed = true) (base : l.base = 10)
    (made : l.decimalReal = .ok d) : l.Classified d := by
  rw [decimalReal_eq wellFormed base, classifyDecimal] at made
  cases kind : l.suffixKind with
  | absent =>
    simp only [kind] at made
    cases made
    split
    · exact .decimalMachine base
    · exact .decimalPrecise _ base
  | machine =>
    simp only [kind] at made
    cases made
    exact .decimalMachine base
  | accuracy text =>
    simp only [kind] at made
    obtain ⟨_, _, made⟩ := Except.bind_ok_iff.mp made
    obtain ⟨_, _, made⟩ := Except.bind_ok_iff.mp made
    cases made
    exact .decimalPrecise _ base
  | precision text =>
    simp only [kind] at made
    obtain ⟨_, _, made⟩ := Except.bind_ok_iff.mp made
    cases made
    exact .decimalPrecise _ base

theorem radixReal_classified (wellFormed : l.isWellFormed = true) (base : l.base ≠ 10)
    (made : l.radixReal = .ok d) : l.Classified d := by
  rw [radixReal_eq wellFormed] at made
  split at made
  swap
  · cases made
  rw [classifyRatio] at made
  cases kind : l.suffixKind with
  | absent =>
    simp only [kind] at made
    split at made
    · obtain ⟨_, _, rfl⟩ := Except.map_ok_iff.mp made
      exact .radixPrecise _ base
    · cases made
      exact .radixMachine base
  | machine =>
    simp only [kind] at made
    cases made
    exact .radixMachine base
  | accuracy text =>
    simp only [kind] at made
    obtain ⟨_, _, made⟩ := Except.bind_ok_iff.mp made
    obtain ⟨_, _, rfl⟩ := Except.map_ok_iff.mp made
    exact .radixPrecise _ base
  | precision text =>
    simp only [kind] at made
    obtain ⟨_, _, made⟩ := Except.bind_ok_iff.mp made
    obtain ⟨_, _, rfl⟩ := Except.map_ok_iff.mp made
    exact .radixPrecise _ base

theorem toDraft_classified (made : l.toDraft = .ok d) : l.isWellFormed = true ∧ l.Classified d := by
  unfold toDraft at made
  split at made
  · cases made
  · rename_i wellFormed
    refine ⟨by simpa using wellFormed, ?_⟩
    split at made
    · rename_i exactly
      have point : l.hasPoint = false := by
        rw [Bool.and_eq_true, Bool.not_eq_true'] at exactly
        exact exactly.1
      exact exact_classified (by simpa using wellFormed) point made
    · split at made
      · rename_i base
        exact decimalReal_classified (by simpa using wellFormed) base made
      · rename_i base
        exact radixReal_classified (by simpa using wellFormed) base made

end Literal

end SymbolicKernel

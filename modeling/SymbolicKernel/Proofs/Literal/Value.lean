import SymbolicKernel.Proofs.Double.Rounded
import SymbolicKernel.Proofs.Literal.Classification
import SymbolicKernel.Proofs.Numeral.Digits

/-!
The exact value of a literal, digit by digit, and the machine reals that literals become: each is this value rounded
once, whatever the base.
-/
namespace SymbolicKernel

namespace Literal

variable {l : Literal}

/-- The sign, times the digits before and behind the point, times the power of the base. -/
def value (l : Literal) : ℚ :=
  (if l.negative then -1 else 1) * (Numeral.valueOf l.base l.parts.1 + Numeral.fractionOf l.base l.parts.2) *
    (l.base : ℚ) ^ l.exponent

theorem significand_eq (l : Literal) :
    (l.significand : ℚ) = (if l.negative then -1 else 1) * Numeral.valueOf l.base (l.parts.1 ++ l.parts.2) := by
  rw [significand, Numeral.withSign]
  split <;> simp

theorem value_eq_scaled (pos : 0 < l.base) : l.value = l.significand * (l.base : ℚ) ^ l.lastExponent :=
  (Numeral.withSign_mul_zpow pos l.negative l.parts.1 l.parts.2 l.exponent).symm

theorem value_eq_ratio (pos : 0 < l.base) : l.value = l.ratio.1 / l.ratio.2 := by
  have base : (l.base : ℚ) ≠ 0 := by positivity
  rw [value_eq_scaled pos, ratio]
  split
  · rename_i nonneg
    have whole : l.lastExponent = (l.lastExponent.natAbs : ℕ) := by omega
    rw [whole, zpow_natCast, Int.natAbs_natCast]
    push_cast
    ring
  · rename_i neg
    have whole : l.lastExponent = -(l.lastExponent.natAbs : ℕ) := by omega
    conv_lhs => rw [whole, zpow_neg, zpow_natCast]
    push_cast
    ring

theorem magnitude_rounds (ten : l.base = 10) : l.magnitude.Rounds |l.value| := by
  have rounds := Double.Rounds.ofDecimal (Numeral.valueOf 10 (l.parts.1 ++ l.parts.2)) l.lastExponent
  have scale : (0 : ℚ) ≤ 10 ^ l.lastExponent := zpow_nonneg (by norm_num) _
  have sign : |if l.negative then (-1 : ℚ) else 1| = 1 := by split <;> norm_num
  rw [value_eq_scaled (by omega), significand_eq, ten, Nat.cast_ofNat, abs_mul, abs_mul, sign, one_mul, Nat.abs_cast,
    abs_of_nonneg scale]
  exact_mod_cast rounds

theorem decimalDouble_rounds (ten : l.base = 10) : l.decimalDouble.Rounds l.value := by
  have rounds := Double.Rounds.ofDecimal (Numeral.valueOf 10 (l.parts.1 ++ l.parts.2)) l.lastExponent
  rw [value_eq_scaled (by omega), significand_eq, ten, decimalDouble]
  split
  · simpa using rounds.neg
  · simpa using rounds

theorem ratio_rounds (pos : 0 < l.base) : l.ratioDouble.Rounds l.value := by
  have denominator : ((l.ratio.2.natAbs : ℕ) : ℤ) = l.ratio.2 := Int.natAbs_of_nonneg (ratio_pos pos).le
  have quotient : mkRat l.ratio.1 l.ratio.2.natAbs = l.value := by
    rw [value_eq_ratio pos, Rat.mkRat_eq_div]
    rw [← Int.cast_natCast, denominator]
  rw [ratioDouble, quotient]
  exact .ofRat _

theorem rounds_of_machine {x : Double} (machine : l.toDraft = .ok (.machine x)) : x.Rounds l.value := by
  obtain ⟨wellFormed, classified⟩ := toDraft_classified machine
  have base := base_of_isWellFormed wellFormed
  cases classified with
  | decimalMachine ten => exact decimalDouble_rounds ten
  | radixMachine _ => exact ratio_rounds (by omega)

/-- A literal that becomes a machine real is its exact value rounded once, to the nearest double with ties to even and
to the infinity of its sign when it is out of range. Two literals of one value give one double, also when one is read
as a text and the other as a quotient of whole numbers. -/
theorem machine_rounded_once {x : Double} (machine : l.toDraft = .ok (.machine x)) :
    x.IsNearest l.value ∧
      ∀ (l' : Literal) (x' : Double), l'.toDraft = .ok (.machine x') → l'.value = l.value → x'.Equal x := by
  have rounds := rounds_of_machine machine
  refine ⟨rounds.isNearest, ?_⟩
  intro l' x' machine' same
  have rounds' := rounds_of_machine machine'
  rw [same] at rounds'
  exact rounds'.equal rounds

/-- The midpoint between one and the next double, in base sixteen and in base ten. -/
theorem machine_rounded_once_of_midpoint :
    let hexadecimal := ((decimal "1.00000000000008").withBase 16).withSuffix ""
    let spelled := (decimal "1.00000000000000011102230246251565404236316680908203125").withSuffix ""
    ∃ x x', hexadecimal.toDraft = .ok (.machine x) ∧ spelled.toDraft = .ok (.machine x') ∧
      spelled.value = hexadecimal.value ∧ x.IsNearest hexadecimal.value ∧ x'.Equal x := by
  intro hexadecimal spelled
  have machine : hexadecimal.toDraft = .ok (.machine (.ofRat (mkRat hexadecimal.ratio.1 hexadecimal.ratio.2.natAbs))) := by
    subst hexadecimal
    rfl
  have machine' : spelled.toDraft = .ok (.machine spelled.decimalDouble) := by
    subst spelled
    rfl
  have same : spelled.value = hexadecimal.value := by
    have digits : hexadecimal.significand = 72057594037927944 := by decide +kernel
    have digits' : spelled.significand = 100000000000000011102230246251565404236316680908203125 := by decide +kernel
    have last : hexadecimal.lastExponent = -14 := by decide
    have last' : spelled.lastExponent = -53 := by decide
    rw [value_eq_scaled (by decide), value_eq_scaled (by decide), digits, digits', last, last']
    norm_num [hexadecimal, spelled, withBase, withSuffix, decimal]
  obtain ⟨nearest, equal⟩ := machine_rounded_once machine
  exact ⟨_, _, machine, machine', same, nearest, equal _ _ machine' same⟩

end Literal

end SymbolicKernel

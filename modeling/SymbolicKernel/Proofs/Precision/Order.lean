import SymbolicKernel.Proofs.Double.Pattern
import SymbolicKernel.Precision

/-!
Counting bits in digits and digits in bits keeps the order of counts, because each step of it does: the operations on
doubles, the rounding to a whole number and the cut to what 32 bits can count.
Main statements: `Precision.bitsToDigits_mono` and `Precision.digitsToBits_mono`.
-/
namespace SymbolicKernel

namespace Rational

theorem abs_round_sub_le (tie : Tie) (x : ℚ) : |(round tie x : ℚ) - x| ≤ 1 / 2 := by
  have near := abs_roundDiv_sub_le tie x.num.natAbs x.den_pos
  rw [natAbs_num_div_den] at near
  rcases lt_trichotomy x.num 0 with neg | zero | pos
  · have magnitude : |x| = -x := abs_of_neg (Rat.num_neg.mp neg)
    rw [magnitude, ← abs_neg] at near
    simpa [round, Int.sign_eq_neg_one_of_neg neg, sub_eq_add_neg, add_comm] using near
  · have nothing : x = 0 := Rat.num_eq_zero.mp zero
    simp [round, nothing]
  · have magnitude : |x| = x := abs_of_pos (Rat.num_pos.mp pos)
    rw [magnitude] at near
    simpa [round, Int.sign_eq_one_of_pos pos] using near

/-- A number less than half a unit from a whole number is rounded to it. -/
theorem round_eq_of_abs_sub_lt {tie : Tie} {x : ℚ} {n : ℤ} (near : |x - n| < 1 / 2) : round tie x = n := by
  have rounded := abs_round_sub_le tie x
  have close : |((round tie x - n : ℤ) : ℚ)| < 1 := by
    push_cast
    calc |(round tie x : ℚ) - n| = |(round tie x - x) + (x - n)| := by ring_nf
      _ ≤ |round tie x - x| + |x - n| := abs_add_le _ _
      _ < 1 := by linarith
  have none : round tie x - n = 0 := Int.abs_lt_one_iff.mp (by exact_mod_cast close)
  omega

/-- Two numbers that were rounded against their order would both be halfway between the results, and so be one number. -/
theorem round_le_round (tie : Tie) {x y : ℚ} (le : x ≤ y) : round tie x ≤ round tie y := by
  by_contra less
  have down := abs_round_sub_le tie x
  have up := abs_round_sub_le tie y
  have next : (round tie y : ℚ) + 1 ≤ round tie x := by exact_mod_cast not_le.mp less
  rw [abs_le] at down up
  have equal : x = y := by linarith
  exact less (by rw [equal])

end Rational

namespace Double.IsNearest

variable {v w : ℚ} {x y : MachineReal}

theorem abs_sub_le (nearest : (finite x).IsNearest v) (y : MachineReal) : |x.toRat - v| ≤ |y.toRat - v| := by
  by_cases same : y.toRat = x.toRat
  · rw [same]
  · rcases nearest.2 y same with nearer | ⟨tied, _⟩
    · exact nearer.le
    · exact tied.le

/-- Nearest doubles keep the order of the numbers that they are nearest to: otherwise the midpoint of the two doubles
would be no greater than the lesser number and no less than the greater one. How ties go does not matter. -/
theorem toRat_le (first : (finite x).IsNearest v) (second : (finite y).IsNearest w) (less : v < w) :
    x.toRat ≤ y.toRat := by
  by_contra greater
  have left := first.abs_sub_le y
  have right := second.abs_sub_le x
  rw [← sq_le_sq] at left right
  nlinarith

end Double.IsNearest

namespace Precision

/-- A number is rounded to its nearest double, or left as it is where it is past all of them. -/
theorem rounded_cases (v : ℚ) :
    (∃ x : MachineReal, (Double.finite x).IsNearest v ∧ rounded v = x.toRat) ∨ overflowBound ≤ |v| ∧ rounded v = v := by
  have nearest := (Double.Rounds.ofRat v).isNearest
  cases made : Double.ofRat v with
  | finite x =>
    rw [made] at nearest
    exact .inl ⟨x, nearest, by simp only [rounded, made, Double.finite?]⟩
  | infinite negative =>
    rw [made] at nearest
    exact .inr ⟨nearest.1, by simp only [rounded, made, Double.finite?]⟩
  | nan =>
    rw [made] at nearest
    exact nearest.elim

theorem rounded_toRat (x : MachineReal) : rounded x.toRat = x.toRat := by
  obtain ⟨y, nearest, value⟩ | ⟨_, kept⟩ := rounded_cases x.toRat
  · rw [value]
    exact MachineReal.sameValue_iff.mp ((Double.isNearest_toRat_iff _ x).mp nearest)
  · exact kept

/-- Whole numbers up to which doubles can count are left as they are. -/
theorem rounded_natCast {n : ℕ} (small : n < 2 ^ 53) : rounded n = n := by
  obtain ⟨x, _, value⟩ := Double.ofInt_natCast small
  rw [← value, rounded_toRat]

theorem rounded_mono : Monotone rounded := by
  intro v w le
  rcases le.eq_or_lt with rfl | less
  · exact le_rfl
  obtain ⟨x, first, value⟩ | ⟨past, kept⟩ := rounded_cases v <;>
    obtain ⟨y, second, value'⟩ | ⟨past', kept'⟩ := rounded_cases w
  · rw [value, value']
    exact first.toRat_le second less
  · have within := x.abs_toRat_lt
    have small := first.1
    rw [value, kept']
    rw [abs_lt] at within small
    rcases le_abs'.mp past' with low | high <;> linarith
  · have within := y.abs_toRat_lt
    have small := second.1
    rw [kept, value']
    rw [abs_lt] at within small
    rcases le_abs'.mp past with low | high <;> linarith
  · rwa [kept, kept']

theorem clampCount_le_clampCount {m n : ℤ} (le : m ≤ n) : clampCount m ≤ clampCount n := by
  rw [clampCount, clampCount]
  omega

theorem bitsPerDigit_eq : bitsPerDigit.toRat = 7480317065143153 / 2 ^ 51 := by decide +kernel

theorem bitsPerDigit_pos : 0 < bitsPerDigit.toRat := by
  rw [bitsPerDigit_eq]
  norm_num

theorem bitsToDigits_mono : Monotone bitsToDigits := by
  intro bits bits' le
  have counts : (bits : ℚ) ≤ bits' := by exact_mod_cast le
  have quotients := rounded_mono (div_le_div_of_nonneg_right counts bitsPerDigit_pos.le)
  exact clampCount_le_clampCount (Rational.round_le_round _ (rounded_mono (sub_le_sub_right quotients 1)))

theorem digitsToBits_mono : Monotone digitsToBits := by
  intro digits digits' le
  have counts : (digits : ℚ) + 1 ≤ digits' + 1 := by exact_mod_cast Nat.succ_le_succ le
  have products := rounded_mono (mul_le_mul_of_nonneg_right counts bitsPerDigit_pos.le)
  exact clampCount_le_clampCount (Rational.round_le_round _ products)

end Precision

end SymbolicKernel

import SymbolicKernel.Proofs.Decimal.Rounding
import SymbolicKernel.Proofs.Double.Closest

/-!
Correct rounding of exact numbers to doubles, stated for doubles as numbers: nearest, with ties to even codes, and
infinite from halfway between the largest double and the next power of two on.
-/
namespace SymbolicKernel

/-- The midpoint between the largest double and the power of two after it. -/
def overflowBound : ℚ := 2 ^ 1024 - 2 ^ 970

namespace Double

/-- No other double is nearer to `v`, and the code is even if another one is as near. -/
def IsNearest (v : ℚ) : Double → Prop
  | finite x => |v| < overflowBound ∧ ∀ y : MachineReal, y.toRat ≠ x.toRat →
      |x.toRat - v| < |y.toRat - v| ∨ |x.toRat - v| = |y.toRat - v| ∧ Even x.code
  | infinite negative => overflowBound ≤ |v| ∧ negative = decide (v < 0)
  | nan => False

/-- Equality of doubles as numbers. It identifies the two zeros, and what is not a number is equal to nothing. -/
def Equal : Double → Double → Prop
  | finite x, finite y => x.sameValue y = true
  | infinite a, infinite b => a = b
  | _, _ => False

theorem Equal.exists_finite {x : Double} {y : MachineReal} (equal : x.Equal (finite y)) :
    ∃ z : MachineReal, x = finite z ∧ z.sameValue y = true := by
  cases x with
  | finite z => exact ⟨z, rfl, equal⟩
  | infinite _ => exact equal.elim
  | nan => exact equal.elim

/-- The double has the nearest code of the magnitude, and the sign unless there is nothing to be signed. -/
def Rounds (v : ℚ) (x : Double) : Prop :=
  ∃ negative code, ClosestCode |v| code ∧ (v ≠ 0 → negative = decide (v < 0)) ∧
    x = ofCode negative (min code infinityCode)

end Double

theorem ClosestCode.code_eq_zero {code : ℕ} (closest : ClosestCode 0 code) : code = 0 :=
  closest.unique .zero

theorem codeValue_last : codeValue (infinityCode - 1) = 2 ^ 1024 - 2 * 2 ^ 970 := by
  have block : (infinityCode - 1) / 2 ^ 52 - 1 = 2045 := by decide
  have next : infinityCode - 1 + 1 = infinityCode := by decide
  have step := codeValue_succ (infinityCode - 1)
  have spacing : codeSpacing (infinityCode - 1) = 2 * 2 ^ 970 := by
    rw [codeSpacing, block]
    exact (zpow_natCast 2 971).trans (pow_succ' 2 970)
  rw [next, codeValue_infinityCode, spacing] at step
  rw [step, add_sub_cancel_right]

/-- A code is infinite exactly from the overflow bound on: at the bound itself the last finite code is odd. -/
theorem ClosestCode.infinityCode_le_iff {v : ℚ} {code : ℕ} (closest : ClosestCode v code) :
    infinityCode ≤ code ↔ overflowBound ≤ v := by
  have unit : (0 : ℚ) < 2 ^ 970 := by positivity
  have last := codeValue_last
  have infinity := codeValue_infinityCode
  rw [overflowBound]
  generalize (2 : ℚ) ^ 970 = u at unit last ⊢
  generalize (2 : ℚ) ^ 1024 = top at infinity last ⊢
  constructor
  · intro past
    by_contra below
    have value := codeValue_strictMono.monotone past
    have near := closest.le (infinityCode - 1)
    rw [abs_of_pos (by linarith)] at near
    rcases abs_cases (codeValue (infinityCode - 1) - v) with ⟨eq, _⟩ | ⟨eq, _⟩ <;> rw [eq] at near <;> linarith
  · intro large
    by_contra finite
    have before : code ≤ infinityCode - 1 := by omega
    have value := codeValue_strictMono.monotone before
    have near := closest.le infinityCode
    have tied := closest.even infinityCode (by omega)
    have far : |codeValue code - v| = v - codeValue code := by rw [abs_of_neg (by linarith), neg_sub]
    rw [far] at near tied
    have under : v < codeValue infinityCode := by
      by_contra past
      rw [abs_of_nonpos (by linarith)] at near
      linarith
    rw [abs_of_pos (by linarith)] at near tied
    have least : infinityCode - 1 ≤ code := codeValue_strictMono.le_iff_le.mp (by linarith)
    have last : code = infinityCode - 1 := le_antisymm before least
    rw [last] at tied
    exact absurd (tied (by linarith)) (by decide)

namespace MachineReal

variable {x y : MachineReal} {v : ℚ}

theorem abs_toRat_sub (sign : v ≠ 0 → x.negative = decide (v < 0)) : |x.toRat - v| = |codeValue x.code - abs v| := by
  have nonneg := codeValue_nonneg x.code
  rw [toRat_eq_codeValue]
  rcases lt_trichotomy v 0 with neg | rfl | pos
  · rw [sign neg.ne, if_pos (decide_eq_true neg), abs_of_neg neg, ← abs_neg]
    congr 1
    ring
  · rw [sub_zero, abs_zero, sub_zero, abs_of_nonneg nonneg]
    split
    · rw [abs_neg, abs_of_nonneg nonneg]
    · exact abs_of_nonneg nonneg
  · rw [sign pos.ne', decide_eq_false (not_lt.mpr pos.le), if_neg Bool.false_ne_true, abs_of_pos pos]

theorem abs_codeValue_sub_le (y : MachineReal) (v : ℚ) : |codeValue y.code - abs v| ≤ |y.toRat - v| := by
  rw [← y.abs_toRat]
  exact abs_abs_sub_abs_le _ _

/-- The double of the same magnitude and the other sign is on the far side of zero. -/
theorem abs_toRat_sub_lt (sign : v ≠ 0 → x.negative = decide (v < 0)) (closest : ClosestCode |v| x.code)
    (same : y.code = x.code) (other : y.toRat ≠ x.toRat) : |x.toRat - v| < |y.toRat - v| := by
  have opposite : y.toRat = -x.toRat := by
    rcases abs_eq_abs.mp ((y.abs_toRat.trans (congrArg codeValue same)).trans x.abs_toRat.symm) with eq | eq
    · exact absurd eq other
    · exact eq
  have magnitude : 0 < codeValue x.code := by
    rw [← x.abs_toRat, abs_pos]
    intro zero
    exact other (by rw [opposite, zero, neg_zero])
  have nonzero : v ≠ 0 := by
    rintro rfl
    rw [abs_zero] at closest
    rw [closest.code_eq_zero, codeValue_zero] at magnitude
    exact lt_irrefl _ magnitude
  rw [opposite, toRat_eq_codeValue, sign nonzero]
  rcases lt_or_gt_of_ne nonzero with neg | pos
  · rw [if_pos (decide_eq_true neg), neg_neg, abs_of_pos (by linarith : 0 < codeValue x.code - v), abs_lt]
    constructor <;> linarith
  · rw [decide_eq_false (not_lt.mpr pos.le), if_neg Bool.false_ne_true,
      abs_of_neg (by linarith : -codeValue x.code - v < 0), abs_lt]
    constructor <;> linarith

end MachineReal

namespace Double

theorem ofRat_eq_ofCode (v : ℚ) :
    ∃ code, ClosestCode |v| code ∧ ofRat v = ofCode (v < 0) (min code infinityCode) := by
  obtain ⟨code, closest, nearest⟩ := nearestCode_eq_min v.num.natAbs v.den_pos
  rw [Rational.natAbs_num_div_den] at closest
  refine ⟨code, closest, ?_⟩
  rw [ofRat, nearest, decide_eq_decide.mpr Rat.num_neg]

theorem ofDecimal_eq_ofCode (significand exponent : ℤ) :
    ∃ code, ClosestCode |(significand : ℚ) * 10 ^ exponent| code ∧
      ofDecimal significand exponent = ofCode ((significand : ℚ) * 10 ^ exponent < 0) (min code infinityCode) := by
  have scale : (0 : ℚ) < 10 ^ exponent := zpow_pos (by norm_num) _
  obtain ⟨code, closest, nearest⟩ := nearestDecimalCode_eq_min significand.natAbs exponent
  refine ⟨code, ?_, ?_⟩
  · rwa [abs_mul, abs_of_pos scale, ← Int.cast_abs, ← Nat.cast_natAbs]
  · rw [ofDecimal, nearest, decide_eq_decide.mpr (Rational.intCast_mul_neg_iff scale)]

/-- A decimal is read as the double of the rational that it denotes, in whichever form it is written. -/
theorem ofDecimal_eq_ofRat (significand exponent : ℤ) :
    ofDecimal significand exponent = ofRat (significand * 10 ^ exponent) := by
  obtain ⟨code, closest, decimal⟩ := ofDecimal_eq_ofCode significand exponent
  obtain ⟨code', closest', rational⟩ := ofRat_eq_ofCode (significand * 10 ^ exponent)
  rw [decimal, rational, closest.unique closest']

theorem abs_ofCode (negative : Bool) (code : ℕ) : (ofCode negative code).abs = ofCode false code := by
  unfold ofCode
  split <;> rfl

theorem abs_ofRat_neg (v : ℚ) : (ofRat (-v)).abs = (ofRat v).abs := by
  obtain ⟨code, closest, rounded⟩ := ofRat_eq_ofCode v
  obtain ⟨code', closest', rounded'⟩ := ofRat_eq_ofCode (-v)
  rw [abs_neg] at closest'
  rw [rounded, rounded', abs_ofCode, abs_ofCode, closest.unique closest']

end Double

namespace Double.Rounds

variable {v w : ℚ} {x y : Double}

theorem ofRat (v : ℚ) : Rounds v (Double.ofRat v) := by
  obtain ⟨code, closest, rounded⟩ := ofRat_eq_ofCode v
  exact ⟨decide (v < 0), code, closest, fun _ => rfl, rounded⟩

theorem ofDecimal (significand exponent : ℤ) :
    Rounds (significand * 10 ^ exponent) (Double.ofDecimal significand exponent) := by
  rw [ofDecimal_eq_ofRat]
  exact ofRat _

theorem ofInt (n : ℤ) : Rounds n (Double.ofInt n) := by
  have rounds := Rounds.ofDecimal n 0
  rwa [zpow_zero, mul_one] at rounds

theorem ofNat (n : ℕ) : Rounds n (Double.ofInt n) := by
  rw [← Int.cast_natCast]
  exact ofInt n

theorem neg (rounds : Rounds v x) : Rounds (-v) x.neg := by
  obtain ⟨negative, code, closest, sign, rfl⟩ := rounds
  refine ⟨!negative, code, by rwa [abs_neg], ?_, ?_⟩
  · intro nonzero
    rw [sign (neg_ne_zero.mp nonzero)]
    rcases lt_or_gt_of_ne (neg_ne_zero.mp nonzero) with below | above
    · simp [below, below.le]
    · simp [above, above.le]
  · unfold ofCode
    split <;> rfl

/-- Two roundings of one number are equal. -/
theorem equal (first : Rounds v x) (second : Rounds v y) : x.Equal y := by
  obtain ⟨s, code, closest, sign, rfl⟩ := first
  obtain ⟨t, code', closest', sign', rfl⟩ := second
  obtain rfl := closest.unique closest'
  unfold ofCode
  by_cases zero : v = 0
  · rw [zero, abs_zero] at closest
    obtain rfl := closest.code_eq_zero
    have finite : min 0 infinityCode < infinityCode := by decide
    rw [dif_pos finite, dif_pos finite, Equal, MachineReal.sameValue_iff]
    simp [MachineReal.toRat_eq_codeValue, codeValue_zero]
  · rw [sign zero, sign' zero]
    split
    · exact MachineReal.sameValue_iff.mpr rfl
    · rfl

theorem isNearest (rounds : Rounds v x) : x.IsNearest v := by
  obtain ⟨negative, code, closest, sign, rfl⟩ := rounds
  by_cases past : infinityCode ≤ code
  · have large := closest.infinityCode_le_iff.mp past
    have nonzero : v ≠ 0 := by
      rintro rfl
      rw [abs_zero] at closest
      exact absurd (closest.code_eq_zero ▸ past) (by decide)
    rw [min_eq_right past, ofCode, dif_neg (lt_irrefl _)]
    exact ⟨large, sign nonzero⟩
  · have finite : code < infinityCode := not_le.mp past
    rw [min_eq_left finite.le, ofCode, dif_pos finite]
    refine ⟨not_le.mp (closest.infinityCode_le_iff.not.mp past), ?_⟩
    intro y other
    by_cases same : y.code = code
    · exact .inl (MachineReal.abs_toRat_sub_lt sign closest same other)
    · have distance := MachineReal.abs_toRat_sub (x := ⟨negative, code, finite⟩) sign
      have reverse := MachineReal.abs_codeValue_sub_le y v
      rw [distance]
      rcases ((closest.le y.code).trans reverse).lt_or_eq with nearer | tied
      · exact .inl nearer
      · exact .inr ⟨tied, closest.even y.code same (reverse.trans tied.ge)⟩

theorem of_closest {y : MachineReal} (closest : ClosestCode |v| y.code) (sign : v ≠ 0 → y.negative = decide (v < 0)) :
    Rounds v (.finite y) := by
  refine ⟨y.negative, y.code, closest, sign, ?_⟩
  rw [min_eq_left y.code_lt.le, ofCode, dif_pos y.code_lt]

/-- The rounding of a number whose nearest code is that of a double gives this double back. -/
theorem sameValue_of_closest (rounds : Rounds v x) {y : MachineReal} (closest : ClosestCode |v| y.code)
    (sign : v ≠ 0 → y.negative = decide (v < 0)) : ∃ z : MachineReal, x = .finite z ∧ z.sameValue y = true :=
  (rounds.equal (.of_closest closest sign)).exists_finite

end Double.Rounds

theorem Decimal.toDouble_rounds (x : Decimal) : x.toDouble.Rounds x.toRat := by
  rw [toRat_eq]
  exact .ofDecimal _ _

end SymbolicKernel

import SymbolicKernel.Proofs.Double.Log10
import SymbolicKernel.Proofs.Literal.Suffix
import SymbolicKernel.Proofs.Precision

/-!
The digit counts that literals are given by their magnitude. Main statement: `digits_follow_magnitude`.
-/
namespace SymbolicKernel

namespace Literal

open Real (logb)

section Count

variable {asked magnitude : Double} {n : MachineReal} {v : ℚ} {b : ℕ}

theorem addMagnitude_of_lost (rounds : magnitude.Rounds v) (lost : 2 * |v| ≤ leastDouble) :
    addMagnitude asked magnitude = asked := if_pos (rounds.isZero_iff.mpr lost)

theorem addMagnitude_of_large (rounds : magnitude.Rounds v) (large : overflowBound ≤ v) :
    addMagnitude (.finite n) magnitude = .infinite false := by
  have pos : 0 < v := lt_of_lt_of_le (by positivity) (Double.two_pow_le_overflowBound.trans large)
  rw [rounds.eq_infinite (by rwa [abs_of_pos pos]), decide_eq_false pos.not_gt]
  rfl

/-- A bound for the error of an operation on doubles of moderate size, for use among real numbers. -/
theorem rounds_near {x : Double} (rounds : x.Rounds v) (moderate : |(v : ℝ)| + 1 ≤ 2 ^ 100) :
    ∃ y, x = .finite y ∧ |(y.toRat : ℝ) - v| ≤ (|(v : ℝ)| + 1) / 2 ^ 53 := by
  have bounded : |v| + 1 ≤ 2 ^ 100 := by exact_mod_cast moderate
  obtain ⟨y, made, near⟩ := rounds.near (le_add_of_nonneg_right zero_le_one) (le_add_of_nonneg_left (abs_nonneg v)) bounded
  have real := (Rat.cast_le (K := ℝ)).mpr near
  have places : (2 : ℝ) ^ (-53 : ℤ) = 1 / 2 ^ 53 := by norm_num
  push_cast [places] at real
  exact ⟨y, made, by linarith⟩

/-- The order of magnitude that is counted of a number. None is counted of one that is too small for any double. -/
noncomputable def countedOrder (v : ℚ) : ℝ := if 2 * v ≤ leastDouble then 0 else logb 10 v

theorem neg_le_countedOrder (v : ℚ) : -360 ≤ countedOrder v := by
  rw [countedOrder]
  split
  · norm_num
  · rename_i some
    have pos : (0 : ℝ) < leastDouble := by exact_mod_cast leastDouble_pos
    have above : (leastDouble : ℝ) < 2 * v := by exact_mod_cast not_le.mp some
    have vPos : (v : ℝ) ≠ 0 := by linarith
    have order := Double.logb_le_logb pos above.le
    rw [Real.logb_mul two_ne_zero vPos] at order
    linarith [Double.logb_leastDouble_mem.1, Double.logb_two_mem.2]

/-- Digits behind the point are added to an order of magnitude with about half a digit of error. -/
theorem addMagnitude_near (rounds : magnitude.Rounds v) (nonneg : 0 ≤ v) (small : v < overflowBound)
    (moderate : |(n.toRat : ℝ)| ≤ 2 ^ 99) :
    ∃ k, addMagnitude (.finite n) magnitude = .finite k ∧
      |(k.toRat : ℝ) - (n.toRat + countedOrder v)| ≤ 9 / 20 + |(n.toRat : ℝ)| / 2 ^ 53 := by
  by_cases lost : 2 * v ≤ leastDouble
  · rw [countedOrder, if_pos lost, add_zero]
    refine ⟨n, addMagnitude_of_lost rounds (by rwa [abs_of_nonneg nonneg]), ?_⟩
    rw [sub_self, abs_zero]
    positivity
  · rw [countedOrder, if_neg lost]
    obtain ⟨visible, y, log, near, order⟩ := rounds.log10 (not_le.mp lost) small
    rw [addMagnitude, visible, if_neg Bool.false_ne_true, log]
    have size : |(y.toRat : ℝ)| ≤ 361 := by linarith [abs_sub_abs_le_abs_sub (y.toRat : ℝ) (logb 10 v)]
    have sum := abs_add_le (n.toRat : ℝ) y.toRat
    obtain ⟨k, made, rounded⟩ := rounds_near (Double.Rounds.add n y) (by push_cast; linarith)
    push_cast at rounded
    refine ⟨k, made, ?_⟩
    calc |(k.toRat : ℝ) - (n.toRat + logb 10 v)|
        = |((k.toRat : ℝ) - (n.toRat + y.toRat)) + (y.toRat - logb 10 v)| := by congr 1; ring
      _ ≤ |(k.toRat : ℝ) - (n.toRat + y.toRat)| + |(y.toRat : ℝ) - logb 10 v| := abs_add_le _ _
      _ ≤ 9 / 20 + |(n.toRat : ℝ)| / 2 ^ 53 := by linarith

theorem logb_base_mem (base : 2 ≤ b ∧ b ≤ 36) : 1 / 4 ≤ logb 10 b ∧ logb 10 b ≤ 2 := by
  have low : (2 : ℝ) ≤ b := by exact_mod_cast base.1
  have high : (b : ℝ) ≤ 10 ^ 2 := by
    have most : (b : ℝ) ≤ 36 := by exact_mod_cast base.2
    linarith
  have least := Double.logb_le_logb (by norm_num) low
  have most := Double.logb_le_logb (by linarith) high
  rw [Real.logb_pow, Double.logb_ten, Nat.cast_ofNat, mul_one] at most
  exact ⟨Double.logb_two_mem.1.trans least, most⟩

/-- Decimal digits that a digit of the base is worth. -/
theorem exists_digitsPerPlace (base : 2 ≤ b ∧ b ≤ 36) :
    ∃ y : MachineReal, (Double.ofInt b).log10 = .finite y ∧ |(y.toRat : ℝ) - logb 10 b| ≤ 3 / 2 ^ 52 := by
  obtain ⟨z, exact, value⟩ := Double.ofInt_natCast (n := b) (by omega)
  have pos : 0 < z.toRat := by
    rw [value]
    exact_mod_cast (by omega : 0 < b)
  obtain ⟨y, made, near⟩ := Double.log10_finite pos
  have real : (z.toRat : ℝ) = b := by rw [value, Rat.cast_natCast]
  obtain ⟨low, high⟩ := logb_base_mem base
  rw [real, abs_of_nonneg (by linarith : 0 ≤ logb 10 b)] at near
  exact ⟨y, by rw [exact, made], near.trans (by gcongr; linarith)⟩

/-- Digits of another base are scaled to decimal ones. -/
theorem exists_scaled (base : 2 ≤ b ∧ b ≤ 36) (moderate : |(n.toRat : ℝ)| ≤ 2 ^ 80) :
    ∃ scaled : MachineReal, (Double.finite n).mul (Double.ofInt b).log10 = .finite scaled ∧
      |(scaled.toRat : ℝ) - n.toRat * logb 10 b| ≤ (9 / 2 * |(n.toRat : ℝ)| + 1) / 2 ^ 52 := by
  obtain ⟨y, log, per⟩ := exists_digitsPerPlace base
  obtain ⟨low, high⟩ := logb_base_mem base
  have places : |(n.toRat : ℝ)| * |(y.toRat : ℝ) - logb 10 b| ≤ |(n.toRat : ℝ)| * (3 / 2 ^ 52) := by gcongr
  have size : |(y.toRat : ℝ)| ≤ 21 / 10 := by
    rw [abs_le] at per ⊢
    constructor <;> linarith
  have product : |(n.toRat : ℝ)| * |(y.toRat : ℝ)| ≤ |(n.toRat : ℝ)| * (21 / 10) := by gcongr
  rw [← abs_mul] at places product
  obtain ⟨scaled, made, rounded⟩ := rounds_near (Double.Rounds.mul n y) (by push_cast; linarith)
  push_cast at rounded
  refine ⟨scaled, by rw [log, made], ?_⟩
  calc |(scaled.toRat : ℝ) - n.toRat * logb 10 b|
      = |((scaled.toRat : ℝ) - n.toRat * y.toRat) + n.toRat * (y.toRat - logb 10 b)| := by congr 1; ring
    _ ≤ |(scaled.toRat : ℝ) - n.toRat * y.toRat| + |(n.toRat : ℝ) * (y.toRat - logb 10 b)| := abs_add_le _ _
    _ ≤ (9 / 2 * |(n.toRat : ℝ)| + 1) / 2 ^ 52 := by linarith [abs_nonneg (n.toRat : ℝ)]

theorem scaledMagnitude_near (base : 2 ≤ b ∧ b ≤ 36) (rounds : magnitude.Rounds v) (nonneg : 0 ≤ v)
    (small : v < overflowBound) (moderate : |(n.toRat : ℝ)| ≤ 2 ^ 80) :
    ∃ k, addMagnitude ((Double.finite n).mul (Double.ofInt b).log10) magnitude = .finite k ∧
      |(k.toRat : ℝ) - (n.toRat * logb 10 b + countedOrder v)| ≤ 19 / 40 + 6 * |(n.toRat : ℝ)| / 2 ^ 52 := by
  obtain ⟨scaled, made, close⟩ := exists_scaled base moderate
  obtain ⟨low, high⟩ := logb_base_mem base
  have product : |(n.toRat : ℝ)| * logb 10 b ≤ |(n.toRat : ℝ)| * 2 := by gcongr
  have size := abs_sub_abs_le_abs_sub (scaled.toRat : ℝ) (n.toRat * logb 10 b)
  rw [abs_mul, abs_of_nonneg (by linarith : 0 ≤ logb 10 b)] at size
  obtain ⟨k, count, near⟩ := addMagnitude_near (n := scaled) rounds nonneg small (by linarith)
  refine ⟨k, by rw [made, count], ?_⟩
  generalize countedOrder v = order at near ⊢
  calc |(k.toRat : ℝ) - (n.toRat * logb 10 b + order)|
      = |((k.toRat : ℝ) - (scaled.toRat + order)) + (scaled.toRat - n.toRat * logb 10 b)| := by congr 1; ring
    _ ≤ |(k.toRat : ℝ) - (scaled.toRat + order)| + |(scaled.toRat : ℝ) - n.toRat * logb 10 b| := abs_add_le _ _
    _ ≤ 19 / 40 + 6 * |(n.toRat : ℝ)| / 2 ^ 52 := by linarith [abs_nonneg (n.toRat : ℝ)]

end Count

/-- The decimal digits of a literal that is known to so many digits of its base behind the point. -/
noncomputable def worth (l : Literal) (places : ℝ) : ℝ := places * logb 10 l.base + countedOrder |l.value|

variable {l : Literal} {d : Draft} {text : String} {n : MachineReal}

theorem accuracy_count (made : l.toDraft = .ok d) (suffix : l.suffix = some ("`" ++ text))
    (number : Double.ofText? text = some (.finite n)) (moderate : |n.toRat| ≤ 10 ^ 6) :
    ∃ source k, d = .precise source (.finite k) ∧ |(k.toRat : ℝ) - l.worth n.toRat| ≤ 1 ∧
      (l.base = 10 → 2 * |l.value| ≤ leastDouble → k = n) := by
  obtain ⟨wellFormed, _⟩ := toDraft_classified made
  have base := base_of_isWellFormed wellFormed
  have moderate : |(n.toRat : ℝ)| ≤ 10 ^ 6 := by exact_mod_cast moderate
  have nonneg := abs_nonneg l.value
  rw [toDraft_eq wellFormed, if_neg (by simp [suffix])] at made
  split at made
  · rename_i ten
    have rounds := magnitude_rounds ten
    rw [classifyDecimal_accuracy suffix number] at made
    by_cases large : overflowBound ≤ |l.value|
    · rw [addMagnitude_of_large rounds large] at made
      cases made
    · obtain ⟨k, count, near⟩ := addMagnitude_near (n := n) rounds nonneg (not_le.mp large) (by linarith)
      rw [count] at made
      cases made
      refine ⟨_, k, rfl, ?_, ?_⟩
      · rw [worth, ten, Nat.cast_ofNat, Double.logb_ten, mul_one]
        linarith
      · intro _ lost
        rw [addMagnitude_of_lost rounds (by rwa [abs_abs])] at count
        cases count
        rfl
  · rename_i other
    split at made
    · have rounds := (ratio_rounds (by omega : 0 < l.base)).abs
      rw [classifyRatio_accuracy suffix number] at made
      by_cases large : overflowBound ≤ |l.value|
      · obtain ⟨scaled, product, _⟩ := exists_scaled (n := n) base (by linarith)
        rw [product, addMagnitude_of_large rounds large] at made
        cases made
      · obtain ⟨k, count, near⟩ := scaledMagnitude_near (n := n) base rounds nonneg (not_le.mp large) (by linarith)
        rw [count] at made
        cases made
        refine ⟨_, k, rfl, ?_, fun ten => absurd ten other⟩
        rw [worth]
        linarith
    · cases made

/-- Digits behind the point are no more than an exponent of 64 bits leaves room for. -/
theorem fraction_length_lt (exponent : l.exponent < 2 ^ 63) (built : l.lastExponent.natAbs < 2 ^ 32) :
    l.parts.2.length < 2 ^ 64 := by
  rw [lastExponent] at built
  omega

theorem exists_places (exponent : l.exponent < 2 ^ 63) (built : l.lastExponent.natAbs < 2 ^ 32) :
    ∃ n : MachineReal, Double.ofInt l.parts.2.length = .finite n ∧
      |(n.toRat : ℝ) - l.parts.2.length| ≤ (l.parts.2.length + 1) / 2 ^ 53 ∧ |(n.toRat : ℝ)| ≤ 2 ^ 80 := by
  have few : (l.parts.2.length : ℝ) ≤ 2 ^ 64 := by exact_mod_cast (fraction_length_lt exponent built).le
  have whole := Double.Rounds.ofNat l.parts.2.length
  generalize l.parts.2.length = places at few whole ⊢
  have some : (0 : ℝ) ≤ places := Nat.cast_nonneg _
  obtain ⟨n, cast, close⟩ := rounds_near whole (by rw [Rat.cast_natCast, abs_of_nonneg some]; linarith)
  rw [Rat.cast_natCast, abs_of_nonneg some] at close
  have away := abs_sub_abs_le_abs_sub (n.toRat : ℝ) places
  rw [abs_of_nonneg some] at away
  exact ⟨n, cast, close, by linarith⟩

/-- Without a suffix, it depends on the count whether it is used. -/
theorem absent_count (exponent : l.exponent < 2 ^ 63) (made : l.toDraft = .ok d) (suffix : l.suffix = none)
    (point : l.hasPoint = true) (other : l.base ≠ 10) :
    ∃ k : MachineReal, |(k.toRat : ℝ) - l.worth l.parts.2.length| ≤ 1 / 2 + l.parts.2.length / 2 ^ 49 ∧
      (17 ≤ k.toRat ∧ (∃ source, d = .precise source (.finite k)) ∨ k.toRat < 17 ∧ ∃ x, d = .machine x) := by
  obtain ⟨wellFormed, _⟩ := toDraft_classified made
  have base := base_of_isWellFormed wellFormed
  rw [toDraft_eq wellFormed, if_neg (by simp [point]), if_neg other] at made
  split at made
  swap
  · cases made
  rename_i built
  have rounds := (ratio_rounds (by omega : 0 < l.base)).abs
  obtain ⟨n, cast, close, moderate⟩ := exists_places exponent built
  rw [classifyRatio_absent suffix, machineThreshold, Precision.reconstructDigits_machineBits] at made
  have worth : l.worth l.parts.2.length = l.parts.2.length * logb 10 l.base + countedOrder |l.value| := rfl
  generalize l.parts.2.length = places at cast close made worth ⊢
  have some : (0 : ℝ) ≤ places := Nat.cast_nonneg _
  have size : |(n.toRat : ℝ)| ≤ places + (places + 1) / 2 ^ 53 := by
    have away := abs_sub_abs_le_abs_sub (n.toRat : ℝ) places
    rw [abs_of_nonneg some] at away
    linarith
  rw [cast] at made
  by_cases large : overflowBound ≤ |l.value|
  · obtain ⟨scaled, product, _⟩ := exists_scaled base moderate
    simp only [product, addMagnitude_of_large rounds large] at made
    cases made
  obtain ⟨k, count, near⟩ :=
    scaledMagnitude_near base rounds (abs_nonneg l.value) (not_le.mp large) moderate
  simp only [count] at made
  refine ⟨k, ?_, ?_⟩
  · obtain ⟨low, high⟩ := logb_base_mem base
    have scaled : |(n.toRat - places) * logb 10 l.base| ≤ (places + 1) / 2 ^ 53 * 2 := by
      rw [abs_mul, abs_of_nonneg (by linarith : 0 ≤ logb 10 l.base)]
      gcongr
    rw [worth]
    generalize countedOrder |l.value| = order at near ⊢
    calc |(k.toRat : ℝ) - (places * logb 10 l.base + order)|
        = |((k.toRat : ℝ) - (n.toRat * logb 10 l.base + order)) + (n.toRat - places) * logb 10 l.base| := by
          congr 1; ring
      _ ≤ |(k.toRat : ℝ) - (n.toRat * logb 10 l.base + order)| + |(n.toRat - places) * logb 10 l.base| :=
          abs_add_le _ _
      _ ≤ 1 / 2 + places / 2 ^ 49 := by linarith
  · by_cases many : (17 : ℚ) ≤ k.toRat
    · have reached : (Double.finite k).atLeast 17 = true := decide_eq_true many
      rw [if_pos reached] at made
      cases made
      exact .inl ⟨many, _, rfl⟩
    · have short : ¬ (Double.finite k).atLeast 17 = true := by simpa [Double.atLeast] using many
      rw [if_neg short] at made
      cases made
      exact .inr ⟨not_le.mp many, _, rfl⟩

/-- What is too small for any double is far below the order that its digits are counted from. -/
theorem abs_sub_le_iff_visible {k asked : ℝ} {v : ℚ} (near : |k - (asked + countedOrder v)| ≤ 1) (pos : 0 < v) :
    |k - (asked + logb 10 v)| ≤ 1 ↔ leastDouble < 2 * v := by
  rw [countedOrder] at near
  constructor
  · intro claimed
    by_contra lost
    rw [if_pos (not_lt.mp lost), add_zero] at near
    have vReal : (0 : ℝ) < v := by exact_mod_cast pos
    have small : (v : ℝ) ≤ leastDouble := by exact_mod_cast (by linarith [not_lt.mp lost] : v ≤ leastDouble)
    have order := (Double.logb_le_logb vReal small).trans Double.logb_leastDouble_mem.2
    rw [abs_le] at near claimed
    linarith
  · intro some
    rwa [if_neg (not_le.mpr some)] at near

/-- The count of digits of a literal that is accepted follows its magnitude. With an accuracy, it is within one of the
digits asked for and the order of magnitude of the value, just when the value is more than half of the least double;
below that it is taken for zero, and the digits asked for are all that is counted. In a base other than ten and without
a suffix, it decides in the same way between the machine real and the real of this precision, which begins at seventeen
digits. -/
theorem digits_follow_magnitude (exponent : l.exponent < 2 ^ 63) (made : l.toDraft = .ok d) :
    (∀ text n, l.suffix = some ("`" ++ text) → Double.ofText? text = some (.finite n) → |n.toRat| ≤ 10 ^ 6 →
      ∃ source k, d = .precise source (.finite k) ∧ |(k.toRat : ℝ) - l.worth n.toRat| ≤ 1 ∧
        (l.value ≠ 0 → (|(k.toRat : ℝ) - (n.toRat * logb 10 l.base + logb 10 (|l.value| : ℚ))| ≤ 1 ↔
          leastDouble < 2 * |l.value|)) ∧
        (l.base = 10 → 2 * |l.value| ≤ leastDouble → k = n)) ∧
    (l.suffix = none → l.hasPoint = true → l.base ≠ 10 →
      let places : ℝ := l.parts.2.length
      (∃ source k, d = .precise source (.finite k) ∧ 16 ≤ l.worth places ∧
        |(k.toRat : ℝ) - l.worth places| ≤ max 1 (places / 2 ^ 48)) ∨
      (∃ x, d = .machine x) ∧ l.worth places < 18) := by
  constructor
  · intro text n suffix number moderate
    obtain ⟨source, k, same, near, alone⟩ := accuracy_count made suffix number moderate
    refine ⟨source, k, same, near, ?_, alone⟩
    intro nonzero
    exact abs_sub_le_iff_visible near (abs_pos.mpr nonzero)
  · intro suffix point other places
    obtain ⟨wellFormed, _⟩ := toDraft_classified made
    obtain ⟨k, near, chosen⟩ := absent_count exponent made suffix point other
    have some : 0 ≤ places := Nat.cast_nonneg _
    have least : places / 4 - 360 ≤ l.worth places := by
      have scaled : places * (1 / 4) ≤ places * logb 10 l.base := by
        gcongr
        exact (logb_base_mem (base_of_isWellFormed wellFormed)).1
      rw [worth]
      linarith [neg_le_countedOrder |l.value|]
    change |(k.toRat : ℝ) - l.worth places| ≤ 1 / 2 + places / 2 ^ 49 at near
    generalize l.worth places = t at near least ⊢
    have bound := abs_le.mp near
    rcases chosen with ⟨many, source, same⟩ | ⟨short, x, same⟩
    · have many : (17 : ℝ) ≤ k.toRat := by exact_mod_cast many
      refine .inl ⟨source, k, same, ?_, ?_⟩
      · rcases le_total places (2 ^ 48) with few | more <;> linarith
      · rcases le_total places (2 ^ 48) with few | more
        · exact le_max_of_le_left (by linarith)
        · exact le_max_of_le_right (by linarith)
    · have short : (k.toRat : ℝ) < 17 := by exact_mod_cast short
      refine .inr ⟨⟨x, same⟩, ?_⟩
      rcases le_total places (2 ^ 48) with few | more <;> linarith

/-- Three places behind the point of one and a half, in base sixteen. -/
theorem digits_follow_magnitude_of_hexadecimal :
    let l := ((decimal "1.8").withBase 16).withSuffix "`3"
    ∃ d, l.toDraft = .ok d ∧ ∃ source k, d = .precise source (.finite k) ∧ |(k.toRat : ℝ) - l.worth 3| ≤ 1 := by
  intro l
  let three : MachineReal := ⟨false, 0x4008000000000000, by decide⟩
  have number : Double.ofText? "3" = some (.finite three) := by decide +kernel
  have value : three.toRat = 3 := by decide +kernel
  let count := addMagnitude ((Double.finite three).mul (Double.ofInt l.base).log10) l.ratioDouble.abs
  have finite : count.finite?.isSome = true := by decide +kernel
  have counted : l.finiteDigits count = .ok count := if_pos finite
  have made : l.toDraft = .ok (.precise (.ratio l.ratio.1 l.ratio.2) count) := by
    have wellFormed : l.isWellFormed = true := by decide
    have pointed : ¬ (l.hasPoint = false ∧ l.suffix = none) := by decide
    have other : l.base ≠ 10 := by decide
    have built : l.lastExponent.natAbs < 2 ^ 32 := by decide
    have suffix : l.suffix = some ("`" ++ "3") := by decide
    rw [toDraft_eq wellFormed, if_neg pointed, if_neg other, if_pos built, classifyRatio_accuracy suffix number]
    change (l.finiteDigits count).map _ = _
    rw [counted]
    rfl
  obtain ⟨source, k, same, near, _⟩ :=
    (digits_follow_magnitude (by decide) made).1 "3" three (by decide) number (by rw [value]; norm_num)
  rw [value, Rat.cast_ofNat] at near
  exact ⟨_, made, source, k, same, near⟩

/-- The magnitude of what is too small for any double is not counted: twenty digits behind the point are none at all of
the four hundredth one, and are taken for twenty. -/
theorem digits_ignore_lost_magnitude :
    let l := ((decimal "1.").withExponent (-400)).withSuffix "`20"
    ∃ k : MachineReal, Double.ofText? "20" = some (.finite k) ∧ k.toRat = 20 ∧
      l.toDraft = .ok (.precise (.text "1.E-400") (.finite k)) ∧ l.value = 10 ^ (-400 : ℤ) ∧
      ¬ |(k.toRat : ℝ) - (20 + logb 10 (|l.value| : ℚ))| ≤ 1 := by
  intro l
  have value : l.value = 10 ^ (-400 : ℤ) := by
    have significand : l.significand = 1 := by decide
    have last : l.lastExponent = -400 := by decide
    rw [value_eq_scaled (by decide), significand, last]
    norm_num [l, withExponent, withSuffix, decimal]
  let twenty : MachineReal := ⟨false, 0x4034000000000000, by decide⟩
  have asked : twenty.toRat = 20 := by decide +kernel
  have number : Double.ofText? "20" = some (.finite twenty) := by decide +kernel
  refine ⟨twenty, number, asked, ?_, value, ?_⟩
  · have wellFormed : l.isWellFormed = true := by decide
    have pointed : ¬ (l.hasPoint = false ∧ l.suffix = none) := by decide
    have suffix : l.suffix = some ("`" ++ "20") := by decide
    have ten : l.base = 10 := rfl
    have count : addMagnitude (.finite twenty) l.magnitude = .finite twenty := by decide +kernel
    have text : l.signedText = "1.E-400" := by decide
    rw [toDraft_eq wellFormed, if_neg pointed, if_pos ten, classifyDecimal_accuracy suffix number, count, text]
    rfl
  · have pos : (0 : ℚ) < 10 ^ (-400 : ℤ) := zpow_pos (by norm_num) _
    have real : (((10 : ℚ) ^ (-400 : ℤ) : ℚ) : ℝ) = 10 ^ (-400 : ℤ) := by rw [Rat.cast_zpow, Rat.cast_ofNat]
    rw [asked, value, abs_of_pos pos, real, Double.logb_ten_zpow]
    norm_num

end Literal

end SymbolicKernel

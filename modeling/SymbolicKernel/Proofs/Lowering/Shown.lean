import SymbolicKernel.Proofs.Double.Shown
import SymbolicKernel.Proofs.Literal.Precise
import SymbolicKernel.Proofs.Literal.Refusal

/-!
Machine reals that are shown and read back. Main statement: `MachineReal.shown_reads_back`.
-/
namespace SymbolicKernel

open Interning

namespace Double

/-- A decimal without a sign is the double without a sign that it is nearest to. -/
theorem ofDecimal_of_closest {x : MachineReal} {significand exponent : ℤ} (positive : x.negative = false)
    (nonneg : 0 ≤ significand) (closest : ClosestCode (significand * 10 ^ exponent) x.code) :
    Double.ofDecimal significand exponent = .finite x := by
  obtain ⟨n, rfl⟩ := Int.eq_ofNat_of_zero_le nonneg
  have code := (nearestDecimalCode_eq_iff x.code_lt n exponent).mpr (by exact_mod_cast closest)
  have sign : decide ((n : ℤ) < 0) = x.negative := by rw [positive, decide_eq_false (Int.not_lt.mpr nonneg)]
  rw [Double.ofDecimal, Int.natAbs_natCast, code, sign, ofCode, dif_pos x.code_lt]

/-- A count that is not below another one of few bits is not rounded below it. -/
theorem le_digitsOfDouble_ofInt {n m : ℕ} (few : n < 2 ^ 32) (le : n ≤ m) :
    n ≤ Precision.digitsOfDouble (Double.ofInt m) := by
  have nearest := (Rounds.ofNat m).isNearest
  have order : (n : ℚ) ≤ m := by exact_mod_cast le
  cases given : Double.ofInt m with
  | nan =>
    rw [given] at nearest
    exact nearest.elim
  | infinite negative =>
    rw [given] at nearest
    have sign : negative = false := nearest.2.trans (decide_eq_false (Nat.cast_nonneg m).not_gt)
    rw [sign]
    exact Nat.le_pred_of_lt few
  | finite y =>
    rw [given] at nearest
    obtain ⟨z, _, value⟩ := ofInt_natCast (few.trans (by norm_num))
    have reached : (n : ℚ) ≤ y.toRat := by
      by_contra below
      have apart : z.toRat ≠ y.toRat := by
        rw [value]
        exact (not_le.mp below).ne'
      have near : |y.toRat - m| ≤ |z.toRat - m| := (nearest.2 z apart).elim le_of_lt fun tied => tied.1.le
      rw [value, abs_of_nonpos (by linarith), abs_of_nonpos (by linarith)] at near
      linarith
    have whole : (n : ℤ) ≤ y.toRat.num.tdiv y.toRat.den := by
      have nonneg : 0 ≤ y.toRat.num := Rat.num_nonneg.mpr ((Nat.cast_nonneg n).trans reached)
      rw [Int.tdiv_eq_ediv_of_nonneg nonneg, ← Rat.floor_def', Int.le_floor]
      exact_mod_cast reached
    rw [Precision.digitsOfDouble, Precision.clampCount, Precision.maxCount]
    omega

end Double

theorem PrecisionReal.toDouble_of_closest {x : MachineReal} (r : PrecisionReal) (positive : x.negative = false)
    (nonneg : 0 ≤ r.toRat) (closest : ClosestCode r.toRat x.code) : r.toDouble = .finite x := by
  rw [toRat, Decimal.toRat_eq] at nonneg closest
  have scale : (0 : ℚ) < 10 ^ r.value.exponent := zpow_pos (by norm_num) _
  exact Double.ofDecimal_of_closest positive (by exact_mod_cast nonneg_of_mul_nonneg_left nonneg scale) closest

theorem Decimal.digits_ofParts_le_of_lt {n k : ℕ} (pos : 0 < k) (small : n < 10 ^ k) (exponent : ℤ) :
    (ofParts n exponent).digits ≤ k :=
  digits_ofScaled_le pos small.le

namespace Literal

variable {text : String} {whole fraction : List Char} {v : ℚ}

theorem parts_of_mantissaText {l : Literal} (spelled : MantissaText l.digits.toList whole fraction)
    (all : (whole ++ fraction).all Char.isDigit = true) : l.parts = (whole, fraction) := by
  have clear : ∀ c ∈ whole, decide (c ≠ '.') = true := by
    intro c member
    refine decide_eq_true ?_
    rintro rfl
    exact absurd (List.all_eq_true.mp all '.' (List.mem_append_left _ member)) (by decide)
  rw [parts]
  generalize l.digits.toList = row at spelled
  cases spelled with
  | whole =>
    rw [List.takeWhile_eq_self_iff.mpr clear]
    simp
  | pointed =>
    rw [List.takeWhile_append_of_pos clear]
    simp

/-- A literal whose digits show a number is this number with the sign of the literal. -/
theorem of_shows {l : Literal} (shows : Shows l.digits.toList whole fraction v) (ten : l.base = 10)
    (exponent : l.exponent = 0) :
    l.isWellFormed = true ∧ l.parts = (whole, fraction) ∧ l.value = (if l.negative then -1 else 1) * v := by
  have digits : (whole ++ fraction).all (Numeral.isDigitOf l.base) = true := by
    rw [ten, funext Numeral.isDigitOf_ten]
    exact shows.digits
  have base : 2 ≤ l.base ∧ l.base ≤ 36 := by omega
  have parts : l.parts = (whole, fraction) := parts_of_mantissaText shows.spelled shows.digits
  refine ⟨(isWellFormed_iff _).mpr ⟨base, whole, fraction, shows.spelled, shows.nonempty, digits⟩, parts, ?_⟩
  rw [value_eq_scaled (by omega), significand_eq, lastExponent, parts, exponent, ten, Nat.cast_ofNat, zero_sub, mul_assoc,
    shows.value]

/-- A text that shows a number is a literal of this value. -/
theorem decimal_of_shows (shows : Shows text.toList whole fraction v) :
    (decimal text).isWellFormed = true ∧ (decimal text).parts = (whole, fraction) ∧ (decimal text).value = v := by
  obtain ⟨wellFormed, parts, value⟩ := of_shows (l := decimal text) shows rfl rfl
  refine ⟨wellFormed, parts, ?_⟩
  rw [value]
  exact one_mul v

theorem text_decimal (text : String) : (decimal text).text = text := by simp [Literal.text, decimal]

/-- A text without a point consists of digits and is read as the whole number that they denote. -/
theorem toDraft_of_no_point (shows : Shows text.toList whole fraction v) (point : '.' ∉ text.toList) :
    text.toList.all Char.isDigit = true ∧
      (decimal text).toDraft = .ok (.integer (Numeral.placeValue 10 text.toList)) ∧
      (Numeral.placeValue 10 text.toList : ℚ) = v := by
  obtain ⟨wellFormed, parts, _⟩ := decimal_of_shows shows
  have none : (decimal text).hasPoint = false := by
    rw [hasPoint, List.contains_eq_mem]
    exact decide_eq_false point
  have digits := parts.symm.trans (parts_of_no_point none)
  obtain ⟨rfl, rfl⟩ := Prod.mk.inj digits
  have all := shows.digits
  have value := shows.value
  have power : (decimal text).power 0 = .ok 1 := rfl
  rw [List.append_nil] at all value
  rw [Numeral.valueOf_eq_placeValue] at value
  refine ⟨all, ?_, ?_⟩
  · rw [toDraft_eq wellFormed, if_pos ⟨none, rfl⟩, exact_eq wellFormed none, significand, parts, List.append_nil,
      Numeral.valueOf_eq_placeValue]
    change ((decimal text).power 0).map _ = _
    rw [power]
    simp [Except.map, decimal, Numeral.withSign]
  · rw [← value]
    simp [decimal]

/-- A text with a point is read as the double nearest to what it shows, or with seventeen digits or more as a real of so
many digits. -/
theorem toDraft_of_point (shows : Shows text.toList whole fraction v) (point : '.' ∈ text.toList) :
    (decimal text).toDraft =
        .ok (.machine (Double.ofDecimal (Numeral.valueOf 10 (whole ++ fraction)) (-fraction.length))) ∨
      ∃ source, ∃ count : ℕ, 17 ≤ count ∧ (decimal text).toDraft = .ok (.precise source (Double.ofInt count)) := by
  obtain ⟨wellFormed, parts, _⟩ := decimal_of_shows shows
  have pointed : (decimal text).hasPoint = true := by
    rw [hasPoint, List.contains_eq_mem]
    exact decide_eq_true point
  have ten : (decimal text).base = 10 := rfl
  rw [toDraft_eq wellFormed, if_neg (by simp [pointed]), if_pos ten, classifyDecimal, suffixKind_absent rfl, magnitude,
    lastExponent, parts]
  simp only [machineThreshold, Precision.reconstructDigits_machineBits]
  by_cases few : whole.length + fraction.length < 17
  · left
    rw [if_pos few, ← zero_sub]
    rfl
  · right
    rw [if_neg few]
    exact ⟨_, _, not_lt.mp few, rfl⟩

end Literal

theorem Tree.lower_number {l : Literal} {d : Draft} {y : RealNumber} {resolver : Resolver} (made : l.toDraft = .ok d)
    (resolved : d.resolve resolver = .ok (.number (.real y))) (table : SymbolTable) :
    perform ((Tree.number l).lower resolver) table = (.ok (.number (.real y)), table) := by
  have drafted : (Tree.number l).toDraft >>= Draft.resolve resolver = .ok (.number (.real y)) := by
    rw [Tree.toDraft, made]
    exact resolved
  rw [lower_perform_resolve, drafted]
  rfl

namespace MachineReal

variable {x : MachineReal} {resolver : Resolver}

theorem isWellFormed_of_negative (negative : x.negative = true) : (Literal.decimal x.text).isWellFormed = false := by
  have minus : '-' ∈ x.text.toList := by
    have first : x.plainText.toList.head? = some '-' := by
      rw [plainText, String.toList_ofList, negative]
      rfl
    have inside := List.mem_of_mem_head? first
    rw [text]
    split
    · rw [String.toList_append]
      exact List.mem_append_left _ inside
    · exact inside
  rw [Bool.eq_false_iff, ne_eq, Literal.isWellFormed_iff]
  rintro ⟨_, whole, fraction, spelled, _, all⟩
  rcases WrittenDecimal.mem_mantissaText spelled '-' minus with digit | point
  · exact (Numeral.ne_mark_of_isDigitOf (List.all_eq_true.mp all '-' digit)).1 rfl
  · cases point

theorem lower_shown_integer (positive : x.negative = false) (large : 10 ^ 16 ≤ x.toRat) (table : SymbolTable) :
    x.text.toList.all Char.isDigit = true ∧
      perform ((Tree.number (.decimal x.text)).lower resolver) table =
        (.ok (.number (.real (.integer (Numeral.placeValue 10 x.text.toList)))), table) ∧
      Double.ofInt (Numeral.placeValue 10 x.text.toList) = .finite x := by
  obtain ⟨whole, fraction, shows, _, point⟩ := exists_shown positive
  obtain ⟨all, made, value⟩ := Literal.toDraft_of_no_point shows (point.not.mpr (not_lt.mpr large))
  refine ⟨all, Tree.lower_number made rfl table, Double.ofDecimal_of_closest positive (Int.natCast_nonneg _) ?_⟩
  rw [Int.cast_natCast, value, zpow_zero, mul_one]
  exact (shortestDecimal_spec x.code_lt).1

theorem lower_shown_inexact (positive : x.negative = false) (small : x.toRat < 10 ^ 16) (table : SymbolTable) :
    ∃ y : RealNumber, perform ((Tree.number (.decimal x.text)).lower resolver) table = (.ok (.number (.real y)), table) ∧
      (y.kind = .machineReal ∨ y.kind = .precisionReal) ∧ y.toDouble = .finite x := by
  obtain ⟨whole, fraction, shows, places, point⟩ := exists_shown positive
  obtain ⟨closest, few, _⟩ := shortestDecimal_spec x.code_lt
  generalize shortestDecimal x.code = shortest at shows closest few
  obtain ⟨_, parts, value⟩ := Literal.decimal_of_shows shows
  rcases Literal.toDraft_of_point shows (point.mpr small) with made | ⟨source, count, many, made⟩
  · have nearest : Double.ofDecimal (Numeral.valueOf 10 (whole ++ fraction)) (-fraction.length) = .finite x := by
      apply Double.ofDecimal_of_closest positive (Int.natCast_nonneg _)
      rw [Int.cast_natCast, shows.value]
      exact closest
    rw [nearest] at made
    exact ⟨.machine x, Tree.lower_number made rfl table, .inl rfl, rfl⟩
  · obtain ⟨r, resolved, digits, rounded⟩ :=
      Literal.resolve_precise rfl (Literal.fits_of_exponent_eq_zero rfl _) made resolver
    have enough : 17 ≤ r.digits := by
      have asked := Double.le_digitsOfDouble_ofInt (by decide) many
      have most : 17 ≤ Precision.maxDigits := by decide
      omega
    have exactly : r.toRat = shortest.1 * 10 ^ shortest.2 := by
      have kept := Decimal.roundDigits_of_digits_le ((Decimal.digits_ofParts_le_of_lt (by decide) few shortest.2).trans enough)
      rw [Decimal.toRat_ofParts, Int.cast_natCast] at kept
      rw [rounded, value, kept]
    rw [← exactly] at closest
    have nonneg : 0 ≤ r.toRat := by
      rw [exactly]
      positivity
    exact ⟨.precise r, Tree.lower_number made resolved table, .inr rfl, r.toDouble_of_closest positive nonneg closest⟩

/-- The text that a double without a sign is shown as is read as the same double: below `10 ^ 16` as a machine real or as
a real of higher precision, whose nearest double it is, but never as an exact number. From `10 ^ 16` on, where all
doubles are whole numbers and are shown by digits alone, the integer of these digits is read. A sign is no digit, so what
is shown with one is refused. -/
theorem shown_reads_back (x : MachineReal) (resolver : Resolver) (table : SymbolTable) :
    let lowered := perform ((Tree.number (.decimal x.text)).lower resolver) table
    (x.negative = false → ∃ y : RealNumber, lowered = (.ok (.number (.real y)), table) ∧ y.toDouble = .finite x ∧
      (x.toRat < 10 ^ 16 → y.kind = .machineReal ∨ y.kind = .precisionReal) ∧
      (10 ^ 16 ≤ x.toRat → x.text.toList.all Char.isDigit = true ∧
        y = .integer (Numeral.placeValue 10 x.text.toList))) ∧
    (x.negative = true → lowered = (.error (.malformedNumber x.text), table)) := by
  intro lowered
  constructor
  · intro positive
    rcases lt_or_ge x.toRat (10 ^ 16) with small | large
    · obtain ⟨y, run, kind, same⟩ := lower_shown_inexact positive small table
      exact ⟨y, run, same, fun _ => kind, fun large => absurd small (not_lt.mpr large)⟩
    · obtain ⟨all, run, same⟩ := lower_shown_integer positive large table
      exact ⟨_, run, same, fun small => absurd small (not_lt.mpr large), fun _ => ⟨all, rfl⟩⟩
  · intro negative
    have refused := Literal.toDraft_of_not_isWellFormed (isWellFormed_of_negative negative)
    simp only [lowered]
    rw [Tree.lower_perform, Tree.toDraft, refused, Literal.refuse, Literal.text_decimal]

/-- The least double that is not zero, shown with 324 places. -/
theorem shown_reads_back_of_least :
    let least : MachineReal := ⟨false, 1, by decide⟩
    least.negative = false ∧ least.toRat < 10 ^ 16 ∧ ∃ y : RealNumber,
      perform ((Tree.number (.decimal least.text)).lower .default) .fresh = (.ok (.number (.real y)), .fresh) ∧
        y.toDouble = .finite least ∧ (y.kind = .machineReal ∨ y.kind = .precisionReal) := by
  intro least
  have small : least.toRat < 10 ^ 16 := by decide +kernel
  obtain ⟨y, run, same, inexact, _⟩ := (shown_reads_back least .default .fresh).1 rfl
  exact ⟨rfl, small, y, run, same, inexact small⟩

/-- From `10 ^ 16` on, the text of a machine real is that of an integer, and the text of the negative zero is that of no
number at all. -/
theorem shown_without_point_or_with_sign :
    let large : MachineReal := ⟨false, 0x4341c37937e08000, by decide⟩
    let zero : MachineReal := ⟨true, 0, by decide⟩
    (large.toRat = 10 ^ 16 ∧ perform ((Tree.number (.decimal large.text)).lower .default) .fresh =
      (.ok (.number (.real (.integer (10 ^ 16)))), .fresh)) ∧
    zero.toRat = 0 ∧ perform ((Tree.number (.decimal zero.text)).lower .default) .fresh =
      (.error (.malformedNumber "-0."), .fresh) := by
  intro large zero
  have shown : large.text = "10000000000000000" := by decide +kernel
  have made : (Literal.decimal "10000000000000000").toDraft = .ok (.integer (10 ^ 16)) := rfl
  have signed : zero.text = "-0." := by decide +kernel
  rw [shown, signed]
  exact ⟨⟨by decide +kernel, Tree.lower_number made rfl .fresh⟩, by decide +kernel, rfl⟩

end MachineReal

end SymbolicKernel

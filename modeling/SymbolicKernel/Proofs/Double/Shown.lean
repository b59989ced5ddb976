import SymbolicKernel.Proofs.Decimal.Grammar
import SymbolicKernel.Proofs.Double.Shortest

/-!
The text that a double is shown as. Main statement: `MachineReal.exists_shown`, it is a row of digits with the point in
place, or without one for the whole numbers from `10 ^ 16` on.
-/
namespace SymbolicKernel

/-- Digits and at most one point that show the number `v`. -/
structure Shows (text whole fraction : List Char) (v : ℚ) : Prop where
  spelled : MantissaText text whole fraction
  nonempty : whole ++ fraction ≠ []
  digits : (whole ++ fraction).all Char.isDigit = true
  value : (Numeral.valueOf 10 (whole ++ fraction) : ℚ) * 10 ^ (-(fraction.length : ℤ)) = v

namespace Numeral

theorem isDigit_zeros (k : ℕ) : (List.replicate k '0').all Char.isDigit = true := by
  rw [List.all_eq_true]
  intro c member
  rw [List.eq_of_mem_replicate member]
  rfl

theorem valueOf_zeros (b k : ℕ) : valueOf b (List.replicate k '0') = 0 := by
  induction k with
  | zero => rfl
  | succ k ih =>
    have first := valueOf_append b ['0'] (List.replicate k '0')
    have zero : valueOf b ['0'] = 0 := by simp [valueOf, digitValue]
    rwa [zero, zero_mul, zero_add, ih] at first

end Numeral

namespace Text

variable {exponent : ℤ}

/-- The point is put among the digits, behind at least one of them: zeros are written in front where there are none. -/
theorem positional_of_neg (digits : List Char) (neg : exponent < 0) :
    ∃ whole fraction zeros, positional digits exponent = whole ++ '.' :: fraction ∧
      whole ++ fraction = List.replicate zeros '0' ++ digits ∧ (fraction.length : ℤ) = -exponent := by
  rw [positional, if_neg (Int.not_le.mpr neg)]
  refine ⟨_, _, _, rfl, List.take_append_drop _ _, ?_⟩
  simp only [List.length_drop, List.length_append, List.length_replicate]
  omega

theorem positional_of_nonneg (digits : List Char) (nonneg : 0 ≤ exponent) :
    positional digits exponent = digits ++ List.replicate exponent.toNat '0' := if_pos nonneg

end Text

namespace Shows

variable {text : List Char} {v : ℚ} {exponent : ℤ} {n : ℕ}

theorem positional_of_nonneg (n : ℕ) (nonneg : 0 ≤ exponent) :
    Shows (Text.positional (Numeral.decimalDigits n) exponent) (Text.positional (Numeral.decimalDigits n) exponent) []
      (n * 10 ^ exponent) := by
  obtain ⟨e, rfl⟩ := Int.eq_ofNat_of_zero_le nonneg
  rw [Text.positional_of_nonneg _ nonneg, Int.toNat_natCast]
  refine ⟨.whole _, ?_, ?_, ?_⟩
  · simp [Numeral.decimalDigits_ne_nil]
  · rw [List.append_nil, List.all_append, Numeral.isDigit_decimalDigits, Numeral.isDigit_zeros]
    rfl
  · rw [List.append_nil, Numeral.valueOf_append, Numeral.valueOf_zeros, Numeral.valueOf_decimalDigits,
      List.length_replicate]
    simp

theorem positional_of_neg (n : ℕ) (neg : exponent < 0) :
    ∃ whole fraction, Text.positional (Numeral.decimalDigits n) exponent = whole ++ '.' :: fraction ∧
      (fraction.length : ℤ) = -exponent ∧ Shows (whole ++ '.' :: fraction) whole fraction (n * 10 ^ exponent) := by
  obtain ⟨whole, fraction, zeros, text, padded, places⟩ :=
    Text.positional_of_neg (Numeral.decimalDigits n) neg
  refine ⟨whole, fraction, text, places, .pointed _ _, ?_, ?_, ?_⟩
  · rw [padded]
    simp [Numeral.decimalDigits_ne_nil]
  · rw [padded, List.all_append, Numeral.isDigit_decimalDigits, Numeral.isDigit_zeros]
    rfl
  · rw [padded, Numeral.valueOf_append, Numeral.valueOf_zeros, Numeral.valueOf_decimalDigits, places]
    simp

/-- The digits of a number in their places show it. -/
theorem exists_positional (n : ℕ) (exponent : ℤ) :
    ∃ whole fraction, Shows (Text.positional (Numeral.decimalDigits n) exponent) whole fraction (n * 10 ^ exponent) := by
  rcases lt_or_ge exponent 0 with neg | nonneg
  · obtain ⟨whole, fraction, text, _, shows⟩ := positional_of_neg n neg
    rw [text]
    exact ⟨whole, fraction, shows⟩
  · exact ⟨_, [], positional_of_nonneg n nonneg⟩

/-- A point behind the last digit does not change the number. -/
theorem pointed (shows : Shows text text [] v) : Shows (text ++ ['.']) text [] v :=
  ⟨.pointed _ _, shows.nonempty, shows.digits, shows.value⟩

end Shows

namespace MachineReal

variable {x : MachineReal}

theorem toRat_of_positive (positive : x.negative = false) : x.toRat = codeValue x.code := by
  rw [toRat_eq_codeValue, if_neg (by rw [positive]; exact Bool.false_ne_true)]

/-- From a bound far below it on, all doubles are whole numbers. -/
theorem whole_or_toRat_lt (positive : x.negative = false) :
    (∃ m : ℕ, codeValue x.code = m ∧ x.isWhole = true ∧ x.toRat.num.natAbs = m) ∨
      (¬ ∃ m : ℕ, codeValue x.code = m) ∧ x.isWhole = false ∧ x.toRat < 10 ^ 16 := by
  have value := toRat_of_positive positive
  by_cases whole : ∃ m : ℕ, codeValue x.code = m
  · obtain ⟨m, whole⟩ := whole
    rw [isWhole, value, whole]
    exact .inl ⟨m, rfl, by simp, by simp⟩
  · refine .inr ⟨whole, ?_, ?_⟩
    · rw [isWhole, beq_eq_false_iff_ne]
      intro one
      have nonneg := codeValue_nonneg x.code
      rw [← value] at nonneg whole
      have integral : (x.toRat.num : ℚ) = x.toRat := (Rat.den_eq_one_iff _).mp one
      have sign : ((x.toRat.num.toNat : ℕ) : ℤ) = x.toRat.num := Int.toNat_of_nonneg (Rat.num_nonneg.mpr nonneg)
      apply whole
      refine ⟨x.toRat.num.toNat, ?_⟩
      rw [← Int.cast_natCast, sign, integral]
    · have small := (exists_natCast_or_codeValue_lt x.code).resolve_left whole
      rw [value]
      exact small.trans (by norm_num)

theorem text_toList (positive : x.negative = false) :
    x.text.toList = Text.positional (Numeral.decimalDigits (shortestDecimal x.code).1) (shortestDecimal x.code).2 ++
      if x.isWhole ∧ x.toRat.num.natAbs < 10 ^ 16 then ['.'] else [] := by
  have plain : x.plainText.toList =
      Text.positional (Numeral.decimalDigits (shortestDecimal x.code).1) (shortestDecimal x.code).2 := by
    rw [plainText, String.toList_ofList, positive]
    rfl
  rw [text, apply_ite String.toList, String.toList_append, plain]
  split
  · rfl
  · rw [List.append_nil]

/-- A double that is not negative is shown as its shortest decimal, with a point if it is below `10 ^ 16`. -/
theorem exists_shown (positive : x.negative = false) :
    ∃ whole fraction,
      Shows x.text.toList whole fraction ((shortestDecimal x.code).1 * 10 ^ (shortestDecimal x.code).2) ∧
      fraction.length ≤ 347 ∧ ('.' ∈ x.text.toList ↔ x.toRat < 10 ^ 16) := by
  obtain ⟨_, _, low, wholeIff⟩ := shortestDecimal_spec x.code_lt
  rw [text_toList positive]
  generalize shortestDecimal x.code = shortest at low wholeIff ⊢
  rcases whole_or_toRat_lt positive with ⟨m, value, isWhole, magnitude⟩ | ⟨other, notWhole, small⟩
  · have shows := Shows.positional_of_nonneg shortest.1 (wholeIff.mpr ⟨m, value⟩)
    have cut : x.toRat < 10 ^ 16 ↔ m < 10 ^ 16 := by
      rw [toRat_of_positive positive, value]
      norm_cast
    simp only [isWhole, magnitude, true_and, cut]
    by_cases small : m < 10 ^ 16
    · rw [if_pos small]
      exact ⟨_, [], shows.pointed, by simp, by simp [small]⟩
    · rw [if_neg small, List.append_nil]
      refine ⟨_, [], shows, by simp, iff_of_false ?_ small⟩
      intro point
      have digit := List.all_eq_true.mp shows.digits '.' (List.mem_append_left _ point)
      exact absurd digit (by decide)
  · have neg : shortest.2 < 0 := not_le.mp (wholeIff.not.mpr other)
    obtain ⟨whole, fraction, text, places, shows⟩ := Shows.positional_of_neg shortest.1 neg
    rw [text, if_neg (by simp [notWhole]), List.append_nil]
    exact ⟨whole, fraction, shows, by omega, iff_of_true (by simp) small⟩

end MachineReal

end SymbolicKernel

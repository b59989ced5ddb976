import Mathlib.Data.Nat.Digits.Defs
import Mathlib.Data.Rat.Floor
import Mathlib.Tactic.FieldSimp
import Mathlib.Tactic.Positivity
import Mathlib.Tactic.Ring
import SymbolicKernel.Proofs.Rational
import SymbolicKernel.Text.Positional

/-!
Digits of whole numbers and of fractions, and written numbers that are read back.
-/
namespace SymbolicKernel.Numeral

variable {b : ℕ} {negative : Bool} {digits body : List Char} {c : Char}

theorem foldl_eq_add_valueOf (b n : ℕ) (digits : List Char) :
    digits.foldl (fun n c => n * b + (digitValue c).getD 0) n = n * b ^ digits.length + valueOf b digits := by
  induction digits generalizing n with
  | nil => simp [valueOf]
  | cons c rest ih =>
    have first : valueOf b (c :: rest) = rest.foldl (fun n c => n * b + (digitValue c).getD 0) ((digitValue c).getD 0) := by
      simp [valueOf]
    rw [List.foldl_cons, ih, first, ih ((digitValue c).getD 0), List.length_cons]
    ring

theorem valueOf_append (b : ℕ) (front back : List Char) :
    valueOf b (front ++ back) = valueOf b front * b ^ back.length + valueOf b back := by
  simp only [valueOf, List.foldl_append]
  exact foldl_eq_add_valueOf b _ back

/-- The value of the digits behind a point. -/
def fractionOf (b : ℕ) : List Char → ℚ
  | [] => 0
  | c :: rest => ((digitValue c).getD 0 + fractionOf b rest) / b

theorem fractionOf_eq (pos : 0 < b) (digits : List Char) :
    fractionOf b digits = valueOf b digits / b ^ digits.length := by
  have base : (b : ℚ) ≠ 0 := by positivity
  induction digits with
  | nil => simp [fractionOf, valueOf]
  | cons c rest ih =>
    have first : valueOf b (c :: rest) = valueOf b [c] * b ^ rest.length + valueOf b rest :=
      valueOf_append b [c] rest
    have digit : valueOf b [c] = (digitValue c).getD 0 := by simp [valueOf]
    rw [fractionOf, ih, first, digit, List.length_cons]
    push_cast
    field_simp
    ring

/-- To pass over the point is to count the exponent from the last digit. -/
theorem withSign_mul_zpow (pos : 0 < b) (negative : Bool) (whole fraction : List Char) (exponent : ℤ) :
    (withSign negative (valueOf b (whole ++ fraction)) : ℚ) * b ^ (exponent - fraction.length) =
      (if negative then -1 else 1) * (valueOf b whole + fractionOf b fraction) * b ^ exponent := by
  have base : (b : ℚ) ≠ 0 := by positivity
  rw [withSign_cast, valueOf_append, fractionOf_eq pos, zpow_sub₀ base, zpow_natCast]
  push_cast
  field_simp

theorem isDigit_iff (c : Char) : c.isDigit = true ↔ '0' ≤ c ∧ c ≤ '9' := by
  simp [Char.isDigit, Char.le_def]

theorem digitValue_of_isDigit (digit : c.isDigit = true) : digitValue c = some (c.toNat - '0'.toNat) := by
  rw [digitValue, if_pos ((isDigit_iff c).mp digit)]

theorem isDigitOf_ten (c : Char) : isDigitOf 10 c = c.isDigit := by
  rw [isDigitOf]
  by_cases digit : c.isDigit = true
  · have most : c.toNat ≤ '9'.toNat := ((isDigit_iff c).mp digit).2
    have nine : '9'.toNat = '0'.toNat + 9 := rfl
    rw [digitValue_of_isDigit digit, digit, Option.any_some, decide_eq_true_eq]
    omega
  · rw [Bool.eq_false_iff.mpr digit, digitValue, if_neg ((isDigit_iff c).not.mp digit)]
    split
    · simp
    · split <;> simp

theorem valueOf_ten (all : digits.all Char.isDigit = true) : valueOf 10 digits = Nat.ofDigitChars 10 digits 0 := by
  rw [valueOf, Nat.ofDigitChars_eq_foldl]
  apply List.foldl_ext
  intro n c member
  rw [digitValue_of_isDigit (List.all_eq_true.mp all c member), Option.getD_some, Nat.mul_comm]

theorem decimalDigits_ne_nil (n : ℕ) : decimalDigits n ≠ [] := Nat.toDigits_ne_nil

theorem isDigit_decimalDigits (n : ℕ) : (decimalDigits n).all Char.isDigit = true := by
  rw [List.all_eq_true]
  intro c member
  exact Nat.isDigit_of_mem_toDigits (by decide) (by decide) member

theorem valueOf_decimalDigits (n : ℕ) : valueOf 10 (decimalDigits n) = n := by
  rw [valueOf_ten (isDigit_decimalDigits n)]
  exact Nat.ofDigitChars_toDigits (by decide) (by decide)

/-- A sign is found in front of what does not begin with one. -/
theorem splitSign_signed (unsigned : ∀ c ∈ body.head?, c ≠ '-' ∧ c ≠ '+') :
    splitSign (Text.signed negative body) = (negative, body) := by
  cases negative with
  | true => rfl
  | false =>
    cases body with
    | nil => rfl
    | cons c rest =>
      obtain ⟨minus, plus⟩ := unsigned c rfl
      simp [Text.signed, splitSign, minus, plus]

theorem ne_sign_of_isDigit (digit : c.isDigit = true) : c ≠ '-' ∧ c ≠ '+' := by
  constructor
  · rintro rfl
    exact absurd digit (by decide)
  · rintro rfl
    exact absurd digit (by decide)

theorem readInt_signed (nonempty : digits ≠ []) (all : digits.all Char.isDigit = true) :
    readInt (Text.signed negative digits) = some (withSign negative (valueOf 10 digits)) := by
  have unsigned : ∀ c ∈ digits.head?, c ≠ '-' ∧ c ≠ '+' := by
    intro c first
    exact ne_sign_of_isDigit (List.all_eq_true.mp all c (List.mem_of_mem_head? first))
  rw [readInt, splitSign_signed unsigned]
  exact if_pos ⟨nonempty, all⟩

theorem readInt_digits (nonempty : digits ≠ []) (all : digits.all Char.isDigit = true) :
    readInt digits = some (valueOf 10 digits : ℤ) := by
  change readInt (Text.signed false digits) = _
  exact readInt_signed nonempty all

theorem repr_toList (n : ℤ) : n.repr.toList = Text.signed (n < 0) (decimalDigits n.natAbs) := by
  cases n with
  | ofNat n => simp [Int.repr, Nat.repr_eq_ofList_toDigits, Text.signed, decimalDigits]
  | negSucc n => simp [Int.repr, Nat.repr_eq_ofList_toDigits, Text.signed, decimalDigits]

theorem readInt_repr (n : ℤ) : readInt n.repr.toList = some n := by
  rw [repr_toList, readInt_signed (decimalDigits_ne_nil _) (isDigit_decimalDigits _), valueOf_decimalDigits]
  exact congrArg some (withSign_natAbs n)

/-- The sum of the digits, each as often as its place in base `b` is worth. -/
def placeValue (b : ℕ) (digits : List Char) : ℕ :=
  Nat.ofDigits b (digits.reverse.map fun c => (digitValue c).getD 0)

theorem valueOf_eq_placeValue (b : ℕ) (digits : List Char) : valueOf b digits = placeValue b digits := by
  induction digits with
  | nil => rfl
  | cons c rest ih =>
    -- the value is folded from the front and the places count from the back, so the first digit is split off
    have first : valueOf b (c :: rest) = valueOf b [c] * b ^ rest.length + valueOf b rest := valueOf_append b [c] rest
    have digit : valueOf b [c] = (digitValue c).getD 0 := by simp [valueOf]
    rw [first, digit, ih, placeValue, placeValue, List.reverse_cons, List.map_append, Nat.ofDigits_append]
    simp only [List.map_cons, List.map_nil, Nat.ofDigits_singleton, List.length_map, List.length_reverse]
    ring

/-- Signs, separators and points are digits in no base. -/
theorem ne_mark_of_isDigitOf (digit : isDigitOf b c = true) : c ≠ '-' ∧ c ≠ '+' ∧ c ≠ '_' ∧ c ≠ '.' := by
  refine ⟨?_, ?_, ?_, ?_⟩
  all_goals
    rintro rfl
    cases digit

/-- The reader that also takes signs and separators reads digits alone as nothing else. -/
theorem readIntInBase_digits (base : 2 ≤ b ∧ b ≤ 36) (nonempty : digits ≠ [])
    (all : ∀ c ∈ digits, isDigitOf b c = true) : readIntInBase b digits = some (placeValue b digits : ℤ) := by
  have unsigned : ∀ c ∈ digits.head?, c ≠ '-' ∧ c ≠ '+' := by
    intro c first
    obtain ⟨minus, plus, _⟩ := ne_mark_of_isDigitOf (all c (List.mem_of_mem_head? first))
    exact ⟨minus, plus⟩
  have split : splitSign digits = (false, digits) := by
    change splitSign (Text.signed false digits) = _
    exact splitSign_signed unsigned
  have joined : digits.filter (· ≠ '_') = digits := by
    rw [List.filter_eq_self]
    intro c member
    exact decide_eq_true (ne_mark_of_isDigitOf (all c member)).2.2.1
  rw [readIntInBase, split]
  simp only [joined, valueOf_eq_placeValue]
  exact if_pos ⟨base.1, base.2, nonempty, List.all_eq_true.mpr all⟩

end SymbolicKernel.Numeral

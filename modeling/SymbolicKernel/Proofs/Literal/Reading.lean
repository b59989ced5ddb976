import SymbolicKernel.Draft.Numeric
import SymbolicKernel.Proofs.Double.Reader

/-!
The digits of a well-formed literal are read without fail, whichever of the readers they are handed to: that of whole
numbers in a base, that of doubles, or that of fractions. Main statements: `exact_eq`, `decimalReal_eq` and
`radixReal_eq`, what is left to be decided once they have been read.
-/
namespace SymbolicKernel

namespace Except

theorem bind_ok_iff {ε α β : Type} {x : Except ε α} {f : α → Except ε β} {b : β} :
    x >>= f = .ok b ↔ ∃ a, x = .ok a ∧ f a = .ok b := by
  cases x with
  | error e => simp [bind, Except.bind]
  | ok a => simp [bind, Except.bind]

theorem map_ok_iff {ε α β : Type} {x : Except ε α} {f : α → β} {b : β} :
    x.map f = .ok b ↔ ∃ a, x = .ok a ∧ f a = b := by
  cases x <;> simp [Except.map]

theorem mapError_ok_iff {ε ε' α : Type} {x : Except ε α} {f : ε → ε'} {a : α} :
    x.mapError f = .ok a ↔ x = .ok a := by
  cases x with
  | error e => exact ⟨nofun, nofun⟩
  | ok b =>
    constructor
    · rintro ⟨⟩
      rfl
    · rintro ⟨⟩
      rfl

end Except

namespace Literal

/-- The value of the digits with the point passed over, with the sign of the literal. -/
def significand (l : Literal) : Int :=
  Numeral.withSign l.negative (Numeral.valueOf l.base (l.parts.1 ++ l.parts.2))

/-- The exponent of the last digit. -/
def lastExponent (l : Literal) : Int := l.exponent - l.parts.2.length

/-- The numerator and the denominator of the quotient that the significand and the power make. -/
def ratio (l : Literal) : Int × Int :=
  if 0 ≤ l.lastExponent then (l.significand * (l.base : Int) ^ l.lastExponent.natAbs, 1)
  else (l.significand, (l.base : Int) ^ l.lastExponent.natAbs)

/-- The magnitude of a literal in base ten as a double. -/
def magnitude (l : Literal) : Double :=
  Double.ofDecimal (Numeral.valueOf 10 (l.parts.1 ++ l.parts.2)) l.lastExponent

/-- The value of a literal in any base as a double. -/
def ratioDouble (l : Literal) : Double := Double.ofRat (mkRat l.ratio.1 l.ratio.2.natAbs)

variable {l : Literal} {row : List Char}

theorem base_of_isWellFormed (wellFormed : l.isWellFormed = true) : 2 ≤ l.base ∧ l.base ≤ 36 := by
  simp only [isWellFormed, Bool.and_eq_true, decide_eq_true_eq] at wellFormed
  exact ⟨wellFormed.1.1.1.1, wellFormed.1.1.1.2⟩

/-- The point stands between the parts of a row, or is put behind it. -/
theorem point_between (row : List Char) :
    (if row.contains '.' then row else row ++ ['.']) =
      row.takeWhile (· ≠ '.') ++ '.' :: row.drop ((row.takeWhile (· ≠ '.')).length + 1) := by
  induction row with
  | nil => rfl
  | cons c rest ih =>
    by_cases point : c = '.'
    · simp [point]
    · have behind : (if (c :: rest).contains '.' then c :: rest else (c :: rest) ++ ['.']) =
          c :: if rest.contains '.' then rest else rest ++ ['.'] := by
        simp [Ne.symm point, apply_ite (List.cons c)]
      rw [behind, ih]
      simp [point]

theorem parts_eq_filter {row : List Char} (once : row.count '.' ≤ 1) :
    row.takeWhile (· ≠ '.') ++ row.drop ((row.takeWhile (· ≠ '.')).length + 1) = row.filter (· ≠ '.') := by
  induction row with
  | nil => rfl
  | cons c rest ih =>
    by_cases point : c = '.'
    · have none : '.' ∉ rest := by
        rw [point, List.count_cons_self] at once
        rw [← List.count_eq_zero]
        omega
      have kept : rest.filter (· ≠ '.') = rest := by
        rw [List.filter_eq_self]
        intro c member
        exact decide_eq_true (ne_of_mem_of_not_mem member none)
      simpa [point] using kept.symm
    · have fewer : rest.count '.' ≤ 1 := by
        rwa [List.count_cons_of_ne point] at once
      simpa [point] using ih fewer

theorem digits_pointed (l : Literal) :
    (if l.hasPoint then l.digits else l.digits ++ ".").toList = l.parts.1 ++ '.' :: l.parts.2 := by
  rw [parts, ← point_between, hasPoint, apply_ite String.toList, String.toList_append]
  rfl

theorem decimalText_toList (l : Literal) :
    l.decimalText.toList = l.parts.1 ++ '.' :: l.parts.2 ++ WrittenDecimal.powerText l.exponent := by
  have power : (if l.exponent = 0 then "" else "E" ++ l.exponent.repr).toList =
      WrittenDecimal.powerText l.exponent := by
    rw [WrittenDecimal.powerText]
    split <;> simp
  rw [decimalText, String.toList_append, digits_pointed, power]

theorem isDigitOf_parts (wellFormed : l.isWellFormed = true) :
    l.parts.1 ++ l.parts.2 ≠ [] ∧ (l.parts.1 ++ l.parts.2).all (Numeral.isDigitOf l.base) = true := by
  simp only [isWellFormed, Bool.and_eq_true, decide_eq_true_eq, Bool.not_eq_true', List.isEmpty_eq_false_iff] at wellFormed
  obtain ⟨⟨⟨_, once⟩, nonempty⟩, all⟩ := wellFormed
  rw [parts, parts_eq_filter once]
  exact ⟨nonempty, all⟩

theorem parts_of_no_point (point : l.hasPoint = false) : l.parts = (l.digits.toList, []) := by
  have digits : l.digits.toList.takeWhile (· ≠ '.') = l.digits.toList := by
    rw [List.takeWhile_eq_self_iff]
    intro c member
    refine decide_eq_true ?_
    rintro rfl
    rw [hasPoint, List.contains_eq_mem, decide_eq_false_iff_not] at point
    exact point member
  rw [parts, digits]
  simp

/-- The reader of whole numbers lets signs and separators pass as well, but finds none in the digits of a literal. -/
theorem readDigits_eq (base : 2 ≤ l.base ∧ l.base ≤ 36) (nonempty : row ≠ [])
    (all : row.all (Numeral.isDigitOf l.base) = true) :
    l.readDigits (String.ofList row) = .ok (Numeral.withSign l.negative (Numeral.valueOf l.base row)) := by
  rw [readDigits, Integer.ofText, String.toList_ofList,
    Numeral.readIntInBase_digits base nonempty (List.all_eq_true.mp all), Numeral.valueOf_eq_placeValue]
  rfl

theorem exact_eq (wellFormed : l.isWellFormed = true) (point : l.hasPoint = false) :
    l.exact = (l.power l.exponent).map fun power =>
      if l.exponent < 0 then .rational l.significand power else .integer (l.significand * power) := by
  obtain ⟨nonempty, all⟩ := isDigitOf_parts wellFormed
  have digits : l.digits = String.ofList (l.parts.1 ++ l.parts.2) := by
    rw [parts_of_no_point point, List.append_nil, String.ofList_toList]
  rw [exact, digits, readDigits_eq (base_of_isWellFormed wellFormed) nonempty all, significand]
  cases l.power l.exponent <;> rfl

theorem readDouble_decimalText (wellFormed : l.isWellFormed = true) (ten : l.base = 10) :
    l.readDouble l.decimalText = .ok l.magnitude := by
  obtain ⟨nonempty, all⟩ := isDigitOf_parts wellFormed
  rw [ten, funext Numeral.isDigitOf_ten] at all
  have written : l.decimalText = String.ofList
      (Text.signed false (l.parts.1 ++ '.' :: l.parts.2) ++ WrittenDecimal.powerText l.exponent) := by
    rw [← String.ofList_toList (s := l.decimalText), decimalText_toList]
    rfl
  have positive : decide ((Numeral.valueOf 10 (l.parts.1 ++ l.parts.2) : ℤ) < 0) = false := decide_eq_false (by omega)
  rw [readDouble, written, Double.ofText?_mantissa _ _ (.pointed _ _) nonempty all, magnitude, Double.ofDecimal,
    Int.natAbs_natCast, positive]
  rfl

theorem decimalReal_eq (wellFormed : l.isWellFormed = true) (ten : l.base = 10) :
    l.decimalReal = l.classifyDecimal l.magnitude := by
  rw [decimalReal, readDouble_decimalText wellFormed ten]
  rfl

theorem ratio_pos (pos : 0 < l.base) : 0 < l.ratio.2 := by
  unfold ratio
  split
  · exact one_pos
  · exact pow_pos (by exact_mod_cast pos) _

/-- The quotient of a literal has no denominator of zero, so only the power can be refused. -/
theorem radixReal_eq (wellFormed : l.isWellFormed = true) :
    l.radixReal = if l.lastExponent.natAbs < 2 ^ 32 then l.classifyRatio l.ratio.1 l.ratio.2 l.ratioDouble else l.refuse := by
  obtain ⟨nonempty, all⟩ := isDigitOf_parts wellFormed
  have base := base_of_isWellFormed wellFormed
  have pos : 0 < l.ratio.2 := ratio_pos (by omega)
  have quotient : Rational.ofFraction l.ratio.1 l.ratio.2 = .ok (mkRat l.ratio.1 l.ratio.2.natAbs) := by
    rw [Rational.ofFraction, if_neg pos.ne', Int.sign_eq_one_of_pos pos, mul_one]
  simp only [radixReal, readDigits_eq base nonempty all]
  by_cases fits : l.lastExponent.natAbs < 2 ^ 32
  · have power : l.power (l.exponent - l.parts.2.length) = .ok ((l.base : ℤ) ^ l.lastExponent.natAbs) := if_pos fits
    rw [power, if_pos fits]
    change ((Rational.ofFraction l.ratio.1 l.ratio.2).mapError LowerError.number >>= fun value =>
      l.classifyRatio l.ratio.1 l.ratio.2 (Double.ofRat value)) = _
    rw [quotient]
    rfl
  · have power : l.power (l.exponent - l.parts.2.length) = l.refuse := if_neg fits
    rw [power, if_neg fits]
    rfl

end Literal

end SymbolicKernel

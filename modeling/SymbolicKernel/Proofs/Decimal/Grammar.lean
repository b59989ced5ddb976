import Mathlib.Data.List.TakeWhile
import SymbolicKernel.Decimal.Reader
import SymbolicKernel.Proofs.Numeral.Digits

/-!
The texts that are read as decimals. Main statements: `read?_eq_some_iff`, every text that is read is spelled as the
grammar says, or with more than one sign in front of its exponent, and the number read is the one written.
-/
namespace SymbolicKernel

/-- At most one sign, and whether it is a minus. -/
inductive SignText : List Char → Bool → Prop
  | none : SignText [] false
  | plus : SignText ['+'] false
  | minus : SignText ['-'] true

/-- Two or more signs, all but the last of them plus signs. The last one counts. -/
inductive StackedSigns : List Char → Bool → Prop
  | pair {c : Char} {negative : Bool} : SignText [c] negative → StackedSigns ['+', c] negative
  | plus {signs : List Char} {negative : Bool} : StackedSigns signs negative → StackedSigns ('+' :: signs) negative

/-- Digits with at most one point among or around them: those before the point and those behind it. -/
inductive MantissaText : List Char → List Char → List Char → Prop
  | whole (digits : List Char) : MantissaText digits digits []
  | pointed (whole fraction : List Char) : MantissaText (whole ++ '.' :: fraction) whole fraction

def powerMarks : List (List Char) := [['e'], ['E'], ['*', '^']]

/-- A mark, signs and at least one digit. The exponent is a number of 64 bits. -/
inductive PowerText (Signs : List Char → Bool → Prop) : List Char → ℤ → Prop
  | intro {mark signs digits : List Char} {negative : Bool} : mark ∈ powerMarks → Signs signs negative → digits ≠ [] →
      digits.all Char.isDigit = true → -2 ^ 63 ≤ Numeral.withSign negative (Numeral.placeValue 10 digits) →
      Numeral.withSign negative (Numeral.placeValue 10 digits) < 2 ^ 63 →
      PowerText Signs (mark ++ signs ++ digits) (Numeral.withSign negative (Numeral.placeValue 10 digits))

/-- No power of ten, or one whose exponent has at most one sign. -/
inductive OptionalPower : List Char → ℤ → Prop
  | none : OptionalPower [] 0
  | some {power : List Char} {exponent : ℤ} : PowerText SignText power exponent → OptionalPower power exponent

theorem WrittenDecimal.lowered_eq_iff {exponent : ℤ} {places : ℕ} :
    lowered exponent places = exponent - places ↔ (exponent < 0 → -2 ^ 63 ≤ exponent - places) := by
  unfold lowered
  by_cases negative : exponent < 0
  · rw [if_pos negative, Numeral.wrap_eq_self_iff]
    omega
  · rw [if_neg negative]
    exact iff_of_true rfl fun below => absurd below negative

/-- What a written decimal consists of. -/
structure Spelling where
  negative : Bool
  whole : List Char
  fraction : List Char
  exponent : ℤ

namespace Spelling

/-- The number written: the digits at their places, times the power of ten. -/
def number (s : Spelling) : ℚ :=
  (if s.negative then -1 else 1) * (Numeral.placeValue 10 s.whole + Numeral.fractionOf 10 s.fraction) * 10 ^ s.exponent

/-- The last digit is as many places below the power of ten as there are digits behind the point. -/
def lastPlace (s : Spelling) : ℤ := s.exponent - s.fraction.length

/-- The exponent of the last digit is still one of 64 bits. It is never above them, and it is below them only if the
exponent is negative, since no text has `2 ^ 63` digits. -/
def Fits (s : Spelling) : Prop := s.exponent < 0 → -2 ^ 63 ≤ s.lastPlace

/-- The digits with the point passed over, and the exponent of the last of them as 64 bits keep it. -/
def written (s : Spelling) : WrittenDecimal :=
  ⟨Numeral.withSign s.negative (Numeral.valueOf 10 (s.whole ++ s.fraction)),
    WrittenDecimal.lowered s.exponent s.fraction.length⟩

theorem written_exponent_eq_iff (s : Spelling) : s.written.exponent = s.lastPlace ↔ s.Fits :=
  WrittenDecimal.lowered_eq_iff

theorem written_number (s : Spelling) : (s.written.significand : ℚ) * 10 ^ s.lastPlace = s.number := by
  have ten : 0 < 10 := by decide
  have moved := Numeral.withSign_mul_zpow ten s.negative s.whole s.fraction s.exponent
  rw [Nat.cast_ofNat] at moved
  rw [number, ← Numeral.valueOf_eq_placeValue]
  exact moved

end Spelling

/-- A text of at most one sign, digits, and a power of ten. -/
inductive Spells (Power : List Char → ℤ → Prop) : List Char → Spelling → Prop
  | intro {sign mantissa power : List Char} {s : Spelling} : SignText sign s.negative →
      MantissaText mantissa s.whole s.fraction → s.whole ++ s.fraction ≠ [] →
      (s.whole ++ s.fraction).all Char.isDigit = true → Power power s.exponent → Spells Power (sign ++ mantissa ++ power) s

section Parts

variable {c mark : Char} {sign before after text whole fraction mantissa digits marks : List Char} {negative : Bool}

theorem SignText.ne_of_isDigit (sign : SignText [c] negative) : c.isDigit = false := by
  cases sign <;> decide

theorem exists_signText (text : List Char) :
    ∃ sign, SignText sign (Numeral.splitSign text).1 ∧ text = sign ++ (Numeral.splitSign text).2 := by
  unfold Numeral.splitSign
  split
  · exact ⟨_, .minus, rfl⟩
  · exact ⟨_, .plus, rfl⟩
  · exact ⟨_, .none, rfl⟩

theorem SignText.splitSign_append (signed : SignText sign negative) (unsigned : ∀ c ∈ text.head?, c ≠ '-' ∧ c ≠ '+') :
    Numeral.splitSign (sign ++ text) = (negative, text) := by
  cases signed with
  | none =>
    change Numeral.splitSign (Text.signed false text) = _
    exact Numeral.splitSign_signed unsigned
  | plus => rfl
  | minus => rfl

namespace WrittenDecimal

theorem splitAtAny_append (clear : ∀ c ∈ before, c ∉ marks) (member : mark ∈ marks) :
    splitAtAny marks (before ++ mark :: after) = some (before, after) := by
  have passed : ∀ c ∈ before, (! marks.contains c) = true := by simpa using clear
  rw [splitAtAny, List.dropWhile_append_of_pos passed, List.takeWhile_append_of_pos passed,
    List.dropWhile_cons_of_neg (by simpa using member), List.takeWhile_cons_of_neg (by simpa using member),
    List.append_nil]

theorem splitAtAny_eq_none (clear : ∀ c ∈ text, c ∉ marks) : splitAtAny marks text = none := by
  have rest : text.dropWhile (! marks.contains ·) = [] := by
    rw [List.dropWhile_eq_nil_iff]
    simpa using clear
  rw [splitAtAny, rest]

theorem exists_mark_of_splitAtAny (split : splitAtAny marks text = some (before, after)) :
    ∃ mark ∈ marks, text = before ++ mark :: after := by
  unfold splitAtAny at split
  split at split
  · cases split
  · rename_i mark behind rest
    cases split
    have marked := List.head?_dropWhile_not (! marks.contains ·) text
    rw [rest] at marked
    refine ⟨mark, by simpa using marked, ?_⟩
    rw [← rest, List.takeWhile_append_dropWhile]

theorem splitAtPower_append (clear : '*' ∉ before) : splitAtPower (before ++ '*' :: '^' :: after) = some (before, after) := by
  induction before with
  | nil => rfl
  | cons c rest ih =>
    have other : c ≠ '*' := fun same => clear (by simp [same])
    rw [List.cons_append, splitAtPower, ih (fun member => clear (List.mem_cons_of_mem _ member))]
    · rfl
    · rintro _ rfl
      exact absurd rfl other

theorem splitAtPower_eq_none (clear : '*' ∉ text) : splitAtPower text = none := by
  fun_induction splitAtPower text with
  | case1 => rfl
  | case2 rest => simp at clear
  | case3 c rest _ ih =>
    rw [ih (fun member => clear (List.mem_cons_of_mem _ member))]
    rfl

theorem eq_append_of_splitAtPower (split : splitAtPower text = some (before, after)) :
    text = before ++ '*' :: '^' :: after := by
  fun_induction splitAtPower text generalizing before with
  | case1 => cases split
  | case2 rest =>
    cases split
    rfl
  | case3 c rest _ ih =>
    obtain ⟨⟨front, back⟩, inner, same⟩ := Option.map_eq_some_iff.mp split
    cases same
    rw [ih inner, List.cons_append]

/-- A text is split at a mark, or has no exponent and is left whole. -/
theorem splitExponent_cases (text : List Char) :
    splitExponent text = (text, none) ∨ ∃ mantissa behind, ∃ mark ∈ powerMarks,
      splitExponent text = (mantissa, some behind) ∧ text = mantissa ++ mark ++ behind := by
  unfold splitExponent
  cases power : splitAtPower text with
  | some split =>
    refine .inr ⟨split.1, split.2, ['*', '^'], by decide, rfl, ?_⟩
    rw [List.append_assoc]
    exact eq_append_of_splitAtPower power
  | none =>
    cases letter : splitAtAny ['e', 'E'] text with
    | none => exact .inl rfl
    | some split =>
      obtain ⟨mark, marked, same⟩ := exists_mark_of_splitAtAny letter
      refine .inr ⟨split.1, split.2, [mark], ?_, rfl, ?_⟩
      · simpa [powerMarks] using marked
      · rw [same, List.append_assoc]
        rfl

/-- No character of the text begins a power of ten. -/
def IsClear (text : List Char) : Prop := ∀ c ∈ text, c ≠ '*' ∧ c ∉ ['e', 'E']

theorem splitExponent_of_isClear (clear : IsClear text) : splitExponent text = (text, none) := by
  have star : '*' ∉ text := fun member => (clear _ member).1 rfl
  rw [splitExponent, splitAtPower_eq_none star, splitAtAny_eq_none fun c member => (clear c member).2]
  rfl

theorem splitExponent_append (clear : IsClear mantissa) (behind : IsClear after) {mark : List Char}
    (marked : mark ∈ powerMarks) : splitExponent (mantissa ++ mark ++ after) = (mantissa, some after) := by
  have star : '*' ∉ mantissa := fun member => (clear _ member).1 rfl
  have letters : ∀ letter ∈ ['e', 'E'], splitExponent (mantissa ++ [letter] ++ after) = (mantissa, some after) := by
    intro letter member
    have star : '*' ∉ mantissa ++ [letter] ++ after := by
      simp only [List.mem_append, List.mem_singleton, not_or]
      refine ⟨⟨star, ?_⟩, fun inside => (behind _ inside).1 rfl⟩
      rintro rfl
      exact absurd member (by decide)
    rw [splitExponent, splitAtPower_eq_none star, List.append_assoc, List.singleton_append,
      splitAtAny_append (fun c inside => (clear c inside).2) member]
    rfl
  simp only [powerMarks, List.mem_cons, List.not_mem_nil, or_false] at marked
  rcases marked with rfl | rfl | rfl
  · exact letters 'e' (by decide)
  · exact letters 'E' (by decide)
  · have split : splitAtPower (mantissa ++ '*' :: '^' :: after) = some (mantissa, after) := splitAtPower_append star
    rw [splitExponent, List.append_assoc, List.cons_append, List.singleton_append, split]
    rfl

theorem mantissaText_splitPoint (text : List Char) : MantissaText text (splitPoint text).1 (splitPoint text).2 := by
  unfold splitPoint
  cases split : splitAtAny ['.'] text with
  | none => exact .whole text
  | some parts =>
    obtain ⟨mark, marked, same⟩ := exists_mark_of_splitAtAny split
    rw [List.mem_singleton.mp marked] at same
    rw [same]
    exact .pointed _ _

theorem splitPoint_of_mantissaText (spelled : MantissaText mantissa whole fraction)
    (all : (whole ++ fraction).all Char.isDigit = true) : splitPoint mantissa = (whole, fraction) := by
  have clear : ∀ c ∈ whole, c ∉ ['.'] := by
    intro c member point
    have digit := List.all_eq_true.mp all c (List.mem_append_left _ member)
    rw [List.mem_singleton.mp point] at digit
    exact absurd digit (by decide)
  unfold splitPoint
  cases spelled with
  | whole => rw [splitAtAny_eq_none clear, Option.getD_none]
  | pointed => rw [splitAtAny_append clear (by decide), Option.getD_some]

theorem readExponent_plus (text : List Char) : readExponent ('+' :: text) = readExponent text := rfl

/-- The sign that counts is the last one, and plus signs before it are passed over. -/
theorem readExponent_append {signs : List Char} (signed : SignText signs negative ∨ StackedSigns signs negative)
    (nonempty : digits ≠ []) (all : digits.all Char.isDigit = true) :
    readExponent (signs ++ digits) =
      (some (Numeral.withSign negative (Numeral.placeValue 10 digits))).filter fun n => -2 ^ 63 ≤ n ∧ n < 2 ^ 63 := by
  have single : ∀ {signs : List Char} {negative : Bool}, SignText signs negative → readExponent (signs ++ digits) =
      (some (Numeral.withSign negative (Numeral.placeValue 10 digits))).filter fun n => -2 ^ 63 ≤ n ∧ n < 2 ^ 63 := by
    intro signs negative signed
    have plain : digits.dropWhile (· = '+') = digits := by
      rw [List.dropWhile_eq_self_iff]
      intro some plus
      exact (Numeral.ne_sign_of_isDigit (List.all_eq_true.mp all _ (List.getElem_mem some))).2 (of_decide_eq_true plus)
    cases signed with
    | none =>
      rw [List.nil_append, readExponent, plain, Numeral.readInt_digits nonempty all, Numeral.valueOf_eq_placeValue]
      rfl
    | plus =>
      rw [List.singleton_append, readExponent_plus, readExponent, plain, Numeral.readInt_digits nonempty all,
        Numeral.valueOf_eq_placeValue]
      rfl
    | minus =>
      rw [← Numeral.valueOf_eq_placeValue, ← Numeral.readInt_signed nonempty all]
      rfl
  rcases signed with one | more
  · exact single one
  · induction more with
    | pair last =>
      rw [List.cons_append, readExponent_plus]
      exact single last
    | plus _ ih => exact ih

theorem exists_signs_of_readExponent {text : List Char} {n : ℤ} (read : readExponent text = some n) :
    ∃ signs negative digits, (SignText signs negative ∨ StackedSigns signs negative) ∧ digits ≠ [] ∧
      digits.all Char.isDigit = true ∧ text = signs ++ digits ∧
      n = Numeral.withSign negative (Numeral.placeValue 10 digits) ∧ -2 ^ 63 ≤ n ∧ n < 2 ^ 63 := by
  induction text with
  | nil => cases read
  | cons c rest ih =>
    by_cases plus : c = '+'
    · rw [plus, readExponent_plus] at read
      obtain ⟨signs, negative, digits, signed, nonempty, all, same, value⟩ := ih read
      have longer : SignText ('+' :: signs) negative ∨ StackedSigns ('+' :: signs) negative := by
        rcases signed with one | more
        · cases one with
          | none => exact .inl .plus
          | plus => exact .inr (.pair .plus)
          | minus => exact .inr (.pair .minus)
        · exact .inr (.plus more)
      rw [plus, same]
      exact ⟨'+' :: signs, negative, digits, longer, nonempty, all, rfl, value⟩
    · have kept : (c :: rest).dropWhile (· = '+') = c :: rest := by simp [plus]
      obtain ⟨sign, signed, same⟩ := exists_signText (c :: rest)
      rw [readExponent, kept, Option.filter_eq_some_iff] at read
      obtain ⟨read, fits⟩ := read
      simp only [Numeral.readInt, Option.ite_none_right_eq_some, Option.some.injEq] at read
      obtain ⟨⟨nonempty, all⟩, value⟩ := read
      rw [Numeral.valueOf_eq_placeValue] at value
      exact ⟨sign, _, _, .inl signed, nonempty, all, same, value.symm, of_decide_eq_true fits⟩

/-- A power of ten is a mark and an exponent that is read. -/
theorem powerText_iff {power : List Char} {exponent : ℤ} :
    PowerText SignText power exponent ∨ PowerText StackedSigns power exponent ↔
      ∃ mark ∈ powerMarks, ∃ behind, power = mark ++ behind ∧ readExponent behind = some exponent := by
  constructor
  · rintro (⟨marked, signed, nonempty, all, low, high⟩ | ⟨marked, signed, nonempty, all, low, high⟩)
    · refine ⟨_, marked, _, List.append_assoc _ _ _, ?_⟩
      rw [readExponent_append (.inl signed) nonempty all, Option.filter_some, if_pos (by simpa using ⟨low, high⟩)]
    · refine ⟨_, marked, _, List.append_assoc _ _ _, ?_⟩
      rw [readExponent_append (.inr signed) nonempty all, Option.filter_some, if_pos (by simpa using ⟨low, high⟩)]
  · rintro ⟨mark, marked, behind, rfl, read⟩
    obtain ⟨signs, negative, digits, signed, nonempty, all, rfl, rfl, low, high⟩ := exists_signs_of_readExponent read
    rw [← List.append_assoc]
    exact signed.imp (fun one => .intro marked one nonempty all low high) fun more => .intro marked more nonempty all low high

theorem isClear_of_numeral {text : List Char} (numeral : ∀ c ∈ text, c.isDigit = true ∨ c ∈ ['+', '-', '.']) :
    IsClear text := by
  intro c member
  have apart : ∀ letter ∈ ['*', 'e', 'E'], c ≠ letter := by
    rintro letter marked rfl
    have kinds : ∀ letter ∈ ['*', 'e', 'E'], ¬ (letter.isDigit = true ∨ letter ∈ ['+', '-', '.']) := by simp
    exact kinds c marked (numeral c member)
  exact ⟨apart '*' (by simp), by simpa using ⟨apart 'e' (by simp), apart 'E' (by simp)⟩⟩

theorem mem_signText {signs : List Char} (signed : SignText signs negative ∨ StackedSigns signs negative) :
    ∀ c ∈ signs, c ∈ ['+', '-', '.'] := by
  have single : ∀ {signs : List Char} {negative : Bool}, SignText signs negative → ∀ c ∈ signs, c ∈ ['+', '-', '.'] := by
    intro signs negative signed
    cases signed <;> simp
  rcases signed with one | more
  · exact single one
  · induction more with
    | pair last => exact List.forall_mem_cons.mpr ⟨by decide, single last⟩
    | plus _ ih => exact List.forall_mem_cons.mpr ⟨by decide, ih⟩

theorem isClear_of_readExponent {exponent : ℤ} (read : readExponent text = some exponent) : IsClear text := by
  obtain ⟨signs, negative, digits, signed, _, all, rfl, _⟩ := exists_signs_of_readExponent read
  apply isClear_of_numeral
  intro c member
  rcases List.mem_append.mp member with before | inside
  · exact .inr (mem_signText signed c before)
  · exact .inl (List.all_eq_true.mp all c inside)

theorem mem_mantissaText (spelled : MantissaText mantissa whole fraction) :
    ∀ c ∈ mantissa, c ∈ whole ++ fraction ∨ c = '.' := by
  cases spelled with
  | whole => exact fun c member => .inl (List.mem_append_left _ member)
  | pointed =>
    intro c member
    rcases List.mem_append.mp member with before | behind
    · exact .inl (List.mem_append_left _ before)
    · exact (List.mem_cons.mp behind).symm.imp_left (List.mem_append_right _)

theorem isClear_mantissa (signed : SignText sign negative) (spelled : MantissaText mantissa whole fraction)
    (all : (whole ++ fraction).all Char.isDigit = true) : IsClear (sign ++ mantissa) := by
  apply isClear_of_numeral
  intro c member
  rcases List.mem_append.mp member with before | inside
  · exact .inr (mem_signText (.inl signed) c before)
  · rcases mem_mantissaText spelled c inside with digit | rfl
    · exact .inl (List.all_eq_true.mp all c digit)
    · exact .inr (by decide)

theorem head_mantissaText (spelled : MantissaText mantissa whole fraction)
    (all : (whole ++ fraction).all Char.isDigit = true) : ∀ c ∈ mantissa.head?, c ≠ '-' ∧ c ≠ '+' := by
  intro c first
  rcases mem_mantissaText spelled c (List.mem_of_mem_head? first) with digit | rfl
  · exact Numeral.ne_sign_of_isDigit (List.all_eq_true.mp all c digit)
  · decide

/-- What stands behind a mantissa: nothing, or a mark and an exponent that is read. -/
inductive Behind : List Char → ℤ → Prop
  | nothing : Behind [] 0
  | power {mark text : List Char} {exponent : ℤ} : mark ∈ powerMarks → readExponent text = some exponent →
      Behind (mark ++ text) exponent

/-- A text is read part by part. -/
theorem read?_of_spells {s : Spelling} (spells : Spells Behind (Text.trim text) s) : read? text = some s.written := by
  generalize trimmed : Text.trim text = body at spells
  obtain ⟨negative, whole, fraction, exponent⟩ := s
  obtain ⟨signed, spelled, nonempty, all, behind⟩ := spells
  have clear := isClear_mantissa signed spelled all
  have sign := signed.splitSign_append (head_mantissaText spelled all)
  have digits : whole ++ fraction ≠ [] ∧ (whole ++ fraction).all Char.isDigit = true := ⟨nonempty, all⟩
  cases behind with
  | nothing =>
    have split := splitExponent_of_isClear clear
    rw [List.append_nil] at trimmed
    simp only [read?, trimmed, split, sign, splitPoint_of_mantissaText spelled all, if_pos digits]
    rfl
  | power marked read =>
    have split := splitExponent_append clear (isClear_of_readExponent read) marked
    rw [← List.append_assoc] at trimmed
    simp only [read?, trimmed, split, sign, splitPoint_of_mantissaText spelled all, if_pos digits, read]
    rfl

/-- What is read has such parts. -/
theorem exists_spells_of_read? {x : WrittenDecimal} (read : read? text = some x) :
    ∃ s, Spells Behind (Text.trim text) s ∧ x = s.written := by
  simp only [read?, Option.ite_none_right_eq_some, Option.map_eq_some_iff] at read
  obtain ⟨⟨nonempty, all⟩, exponent, power, rfl⟩ := read
  obtain ⟨sign, signed, same⟩ := exists_signText (splitExponent (Text.trim text)).1
  have spelled := mantissaText_splitPoint (Numeral.splitSign (splitExponent (Text.trim text)).1).2
  refine ⟨⟨_, _, _, exponent⟩, ?_, rfl⟩
  obtain ⟨behind, known, whole⟩ : ∃ behind, Behind behind exponent ∧
      Text.trim text = (splitExponent (Text.trim text)).1 ++ behind := by
    rcases splitExponent_cases (Text.trim text) with none | ⟨mantissa, behind, mark, marked, split, whole⟩
    · rw [none] at power
      cases power
      refine ⟨[], .nothing, ?_⟩
      rw [none, List.append_nil]
    · rw [split] at power
      refine ⟨mark ++ behind, .power marked power, ?_⟩
      rw [split, ← List.append_assoc, ← whole]
  have spells : Spells Behind _ ⟨_, _, _, exponent⟩ := .intro signed spelled nonempty all known
  rwa [← same, ← whole] at spells

/-- Behind a mantissa there may be a power with at most one sign or with several, and nothing else. -/
theorem behind_iff {power : List Char} {exponent : ℤ} :
    Behind power exponent ↔ OptionalPower power exponent ∨ PowerText StackedSigns power exponent := by
  constructor
  · rintro (_ | ⟨marked, read⟩)
    · exact .inl .none
    · exact (powerText_iff.mpr ⟨_, marked, _, rfl, read⟩).imp_left .some
  · have readable : PowerText SignText power exponent ∨ PowerText StackedSigns power exponent → Behind power exponent := by
      intro power
      obtain ⟨mark, marked, text, rfl, read⟩ := powerText_iff.mp power
      exact .power marked read
    rintro ((_ | single) | stacked)
    · exact .nothing
    · exact readable (.inl single)
    · exact readable (.inr stacked)

theorem spells_behind_iff {s : Spelling} :
    Spells Behind text s ↔ Spells OptionalPower text s ∨ Spells (PowerText StackedSigns) text s := by
  constructor
  · rintro ⟨signed, spelled, nonempty, all, behind⟩
    exact (behind_iff.mp behind).imp (.intro signed spelled nonempty all) (.intro signed spelled nonempty all)
  · rintro (⟨signed, spelled, nonempty, all, power⟩ | ⟨signed, spelled, nonempty, all, power⟩)
    · exact .intro signed spelled nonempty all (behind_iff.mpr (.inl power))
    · exact .intro signed spelled nonempty all (behind_iff.mpr (.inr power))

theorem read?_eq_some_iff {x : WrittenDecimal} :
    read? text = some x ↔ ∃ s, Spells Behind (Text.trim text) s ∧ x = s.written := by
  constructor
  · exact exists_spells_of_read?
  · rintro ⟨s, spells, rfl⟩
    exact read?_of_spells spells

/-- In front of digits, one row of signs is not another: behind a plus sign there is a sign or there is a digit. -/
theorem signs_append_ne {signs signs' digits' : List Char} {negative' : Bool} (stacked : StackedSigns signs negative)
    (single : SignText signs' negative') (nonempty : digits' ≠ []) (all : digits'.all Char.isDigit = true) :
    signs ++ digits ≠ signs' ++ digits' := by
  obtain ⟨first, rest, rfl⟩ := List.exists_cons_of_ne_nil nonempty
  have digit : first.isDigit = true := List.all_eq_true.mp all first List.mem_cons_self
  have second : ∃ c tail, signs = '+' :: c :: tail ∧ c.isDigit = false := by
    cases stacked with
    | pair last => exact ⟨_, _, rfl, last.ne_of_isDigit⟩
    | plus more =>
      cases more with
      | pair _ => exact ⟨'+', _, rfl, by decide⟩
      | plus _ => exact ⟨'+', _, rfl, by decide⟩
  obtain ⟨c, tail, rfl, sign⟩ := second
  cases single with
  | none =>
    rintro ⟨⟩
    exact absurd digit (by decide)
  | plus =>
    rintro ⟨⟩
    rw [sign] at digit
    cases digit
  | minus => rintro ⟨⟩

theorem PowerText.splitExponent {Signs : List Char → Bool → Prop} {power : List Char} {exponent : ℤ}
    (known : ∀ signs negative, Signs signs negative → SignText signs negative ∨ StackedSigns signs negative)
    (spelled : PowerText Signs power exponent) (clear : IsClear mantissa) :
    ∃ signs negative digits, Signs signs negative ∧ digits ≠ [] ∧ digits.all Char.isDigit = true ∧
      splitExponent (mantissa ++ power) = (mantissa, some (signs ++ digits)) := by
  obtain ⟨marked, signed, nonempty, all, _⟩ := spelled
  refine ⟨_, _, _, signed, nonempty, all, ?_⟩
  rw [List.append_assoc, ← List.append_assoc]
  refine splitExponent_append clear (isClear_of_numeral ?_) marked
  intro c member
  rcases List.mem_append.mp member with before | inside
  · exact .inr (mem_signText (known _ _ signed) c before)
  · exact .inl (List.all_eq_true.mp all c inside)

/-- No text is spelled both ways. -/
theorem not_spells_of_stacked {s s' : Spelling} (stacked : Spells (PowerText StackedSigns) text s) :
    ¬ Spells OptionalPower text s' := by
  intro documented
  have twice : ∃ mantissa signs negative digits, StackedSigns signs negative ∧
      splitExponent text = (mantissa, some (signs ++ digits)) := by
    obtain ⟨signed, spelled, _, all, power⟩ := stacked
    obtain ⟨signs, negative, digits, more, _, _, split⟩ :=
      PowerText.splitExponent (fun _ _ => .inr) power (isClear_mantissa signed spelled all)
    exact ⟨_, signs, negative, digits, more, split⟩
  obtain ⟨_, signs, _, digits, more, split⟩ := twice
  obtain ⟨negative, whole, fraction, exponent⟩ := s'
  obtain ⟨signed, spelled, _, all, power⟩ := documented
  have clear := isClear_mantissa signed spelled all
  rcases power with _ | power
  · rw [List.append_nil, splitExponent_of_isClear clear] at split
    cases split
  · obtain ⟨signs', _, digits', single, nonempty, all', split'⟩ := PowerText.splitExponent (fun _ _ => .inl) power clear
    rw [split'] at split
    exact signs_append_ne more single nonempty all' (Option.some.inj (Prod.mk.inj split).2).symm

theorem ofText_eq_ok_iff {text : String} {x : WrittenDecimal} : ofText text = .ok x ↔ read? text.toList = some x := by
  unfold ofText
  cases read? text.toList with
  | some y => simp
  | none => simp

/-- Just those texts are read that are, blanks at their ends apart, at most one sign, digits with at most one point, and
at most one power of ten; but in front of an exponent, plus signs before its sign are passed over. What is read are the
digits written and the exponent of the last of them, which is kept in 64 bits. So it is exactly the number written if
this exponent fits in them, and only then. Any other text is refused by its name. -/
theorem reads_what_is_spelled (text : String) :
    (∀ x, ofText text = .ok x ↔ ∃ s, (Spells OptionalPower (Text.trim text.toList) s ∨
        Spells (PowerText StackedSigns) (Text.trim text.toList) s) ∧
      (x.significand : ℚ) * 10 ^ s.lastPlace = s.number ∧ x.exponent = lowered s.exponent s.fraction.length) ∧
    (∀ s, Spells OptionalPower (Text.trim text.toList) s ∨ Spells (PowerText StackedSigns) (Text.trim text.toList) s →
      ∃ x, ofText text = .ok x ∧ ((x.significand : ℚ) * 10 ^ x.exponent = s.number ∧
        x.exponent = s.exponent - s.fraction.length ↔ s.Fits)) ∧
    (¬ ∃ s s', Spells OptionalPower (Text.trim text.toList) s ∧ Spells (PowerText StackedSigns) (Text.trim text.toList) s') ∧
    ((∃ x, ofText text = .ok x) ∨ ofText text = .error (.malformedLiteral text)) := by
  refine ⟨?_, ?_, ?_, ?_⟩
  · intro x
    rw [ofText_eq_ok_iff, read?_eq_some_iff]
    constructor
    · rintro ⟨s, spells, rfl⟩
      exact ⟨s, spells_behind_iff.mp spells, s.written_number, rfl⟩
    · rintro ⟨s, spells, value, last⟩
      refine ⟨s, spells_behind_iff.mpr spells, ?_⟩
      have scale : (10 : ℚ) ^ s.lastPlace ≠ 0 := zpow_ne_zero _ (by norm_num)
      have digits : x.significand = s.written.significand := by
        have equal := value.trans s.written_number.symm
        rw [mul_left_inj' scale] at equal
        exact_mod_cast equal
      cases x
      cases last
      cases digits
      rfl
  · intro s spells
    refine ⟨s.written, ofText_eq_ok_iff.mpr (read?_of_spells (spells_behind_iff.mpr spells)), ?_⟩
    rw [← s.written_exponent_eq_iff]
    constructor
    · exact fun exactly => exactly.2
    · intro last
      refine ⟨?_, last⟩
      rw [last, s.written_number]
  · rintro ⟨s, s', documented, stacked⟩
    exact not_spells_of_stacked stacked documented
  · unfold ofText
    cases read? text.toList with
    | some x => exact .inl ⟨x, rfl⟩
    | none => exact .inr rfl

/-- The least exponent of 64 bits, lowered by one place, is the greatest. -/
example : ofText "0.5e-9223372036854775808" = .ok ⟨5, 9223372036854775807⟩ := by decide +kernel

/-- An exponent with two signs is no number, and is read as if it had one. -/
theorem reads_exponent_with_two_signs :
    ofText "1e++5" = .ok ⟨1, 5⟩ ∧ ¬ ∃ s, Spells OptionalPower (Text.trim "1e++5".toList) s := by
  refine ⟨by decide +kernel, ?_⟩
  rintro ⟨s, documented⟩
  have stacked : Spells (PowerText StackedSigns) (['1'] ++ ['e', '+', '+', '5']) ⟨false, ['1'], [], 5⟩ := by
    have twoSigns : StackedSigns ['+', '+'] false := .pair .plus
    have mark : ['e'] ∈ powerMarks := by decide
    have power : PowerText StackedSigns (['e'] ++ ['+', '+'] ++ ['5']) 5 :=
      .intro mark twoSigns (List.cons_ne_nil _ _) (by decide) (by decide) (by decide)
    have digits : ['1'] ++ [] ≠ ([] : List Char) ∧ (['1'] ++ []).all Char.isDigit = true := by decide
    exact .intro (s := ⟨false, ['1'], [], 5⟩) .none (.whole ['1']) digits.1 digits.2 power
  exact not_spells_of_stacked stacked documented

end WrittenDecimal

end Parts

end SymbolicKernel

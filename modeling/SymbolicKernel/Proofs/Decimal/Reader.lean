import SymbolicKernel.Proofs.Decimal.Grammar

/-!
Reading back a decimal that was written with a sign, a point and an exponent.
Main statement: `read?_mantissa`.
-/
namespace SymbolicKernel

namespace Text

variable {c : Char} {negative : Bool} {text body : List Char}

/-- The characters of a decimal without an exponent. -/
def isPlain (c : Char) : Bool := c.isDigit || c == '.' || c == '-'

theorem isPlain_of_isDigit (digit : c.isDigit = true) : isPlain c = true := by simp [isPlain, digit]

theorem isBlank_of_isPlain (plain : isPlain c = true) : isBlank c = false := by
  have apart : blanks.all (! isPlain ·) = true := by decide
  rw [isBlank, List.contains_eq_mem, decide_eq_false_iff_not]
  intro blank
  have notPlain := List.all_eq_true.mp apart c blank
  rw [plain] at notPlain
  cases notPlain

theorem isPlain_signed (plain : ∀ c ∈ body, isPlain c = true) : ∀ c ∈ signed negative body, isPlain c = true := by
  cases negative with
  | false => exact plain
  | true => exact List.forall_mem_cons.mpr ⟨rfl, plain⟩

theorem isPlain_repr (n : ℤ) : ∀ c ∈ n.repr.toList, isPlain c = true := by
  rw [Numeral.repr_toList]
  exact isPlain_signed fun c member => isPlain_of_isDigit (List.all_eq_true.mp (Numeral.isDigit_decimalDigits _) c member)

theorem trim_eq_self (visible : ∀ c ∈ text, isBlank c = false) : trim text = text := by
  have kept : ∀ row : List Char, (∀ c ∈ row, isBlank c = false) → row.dropWhile isBlank = row := by
    intro row visible
    rw [List.dropWhile_eq_self_iff]
    intro nonempty
    rw [visible _ (List.getElem_mem nonempty)]
    exact Bool.false_ne_true
  rw [trim, kept text visible, kept text.reverse (by simpa using visible), List.reverse_reverse]

end Text

namespace WrittenDecimal

variable {text mantissa whole fraction : List Char} {negative : Bool} {exponent : ℤ}

/-- An exponent behind its mark; that of zero is left out. -/
def powerText (exponent : ℤ) : List Char := if exponent = 0 then [] else 'E' :: exponent.repr.toList

theorem mem_powerText {c : Char} (member : c ∈ powerText exponent) : c = 'E' ∨ Text.isPlain c = true := by
  unfold powerText at member
  split at member
  · cases member
  · rcases List.mem_cons.mp member with rfl | inside
    · exact .inl rfl
    · exact .inr (Text.isPlain_repr exponent c inside)

theorem trim_append_powerText (plain : ∀ c ∈ text, Text.isPlain c = true) :
    Text.trim (text ++ powerText exponent) = text ++ powerText exponent := by
  apply Text.trim_eq_self
  intro c member
  rcases List.mem_append.mp member with inside | behind
  · exact Text.isBlank_of_isPlain (plain c inside)
  · rcases mem_powerText behind with rfl | inside
    · decide
    · exact Text.isBlank_of_isPlain inside

theorem isClear_repr (exponent : ℤ) : IsClear exponent.repr.toList := by
  apply isClear_of_numeral
  intro c member
  have plain := Text.isPlain_repr exponent c member
  simp only [Text.isPlain, Bool.or_eq_true, beq_iff_eq] at plain
  rcases plain with (digit | rfl) | rfl
  · exact .inl digit
  · exact .inr (by decide)
  · exact .inr (by decide)

/-- An exponent is read back if it is a number of 64 bits, and refused if it is not. -/
theorem readExponent_repr (exponent : ℤ) :
    readExponent exponent.repr.toList = (some exponent).filter fun n => -2 ^ 63 ≤ n ∧ n < 2 ^ 63 := by
  have unsigned : exponent.repr.toList.dropWhile (· = '+') = exponent.repr.toList := by
    rw [List.dropWhile_eq_self_iff]
    intro nonempty plus
    have plain := Text.isPlain_repr exponent _ (List.getElem_mem nonempty)
    rw [of_decide_eq_true plus] at plain
    exact absurd plain (by decide)
  rw [readExponent, unsigned, Numeral.readInt_repr]

theorem splitExponent_powerText (clear : IsClear mantissa) (exponent : ℤ) :
    splitExponent (mantissa ++ powerText exponent) =
      (mantissa, if exponent = 0 then none else some exponent.repr.toList) := by
  unfold powerText
  split
  · rw [List.append_nil]
    exact splitExponent_of_isClear clear
  · have marked : ['E'] ∈ powerMarks := by decide
    have split := splitExponent_append clear (isClear_repr exponent) marked
    rwa [List.append_assoc] at split

theorem exists_signText_signed (negative : Bool) (text : List Char) :
    ∃ sign, SignText sign negative ∧ Text.signed negative text = sign ++ text := by
  cases negative with
  | false => exact ⟨[], .none, rfl⟩
  | true => exact ⟨['-'], .minus, rfl⟩

theorem isPlain_mantissa (spelled : MantissaText mantissa whole fraction)
    (all : (whole ++ fraction).all Char.isDigit = true) : ∀ c ∈ mantissa, Text.isPlain c = true := by
  intro c member
  rcases mem_mantissaText spelled c member with digit | rfl
  · exact Text.isPlain_of_isDigit (List.all_eq_true.mp all c digit)
  · rfl

/-- The text of a decimal is read as the significand without its point and the exponent of its last digit, if the
exponent can be read. -/
theorem read?_mantissa (negative : Bool) (exponent : ℤ) (spelled : MantissaText mantissa whole fraction)
    (nonempty : whole ++ fraction ≠ []) (all : (whole ++ fraction).all Char.isDigit = true) :
    read? (Text.signed negative mantissa ++ powerText exponent) =
      ((some exponent).filter fun n => -2 ^ 63 ≤ n ∧ n < 2 ^ 63).map fun e =>
        ⟨Numeral.withSign negative (Numeral.valueOf 10 (whole ++ fraction)), lowered e fraction.length⟩ := by
  obtain ⟨sign, signed, same⟩ := exists_signText_signed negative mantissa
  have clear := isClear_mantissa signed spelled all
  rw [← same] at clear
  have digits : whole ++ fraction ≠ [] ∧ (whole ++ fraction).all Char.isDigit = true := ⟨nonempty, all⟩
  rw [read?, trim_append_powerText (Text.isPlain_signed (isPlain_mantissa spelled all)), splitExponent_powerText clear]
  simp only [Numeral.splitSign_signed (head_mantissaText spelled all), splitPoint_of_mantissaText spelled all,
    if_pos digits]
  congr 1
  by_cases zero : exponent = 0
  · rw [zero]
    rfl
  · simp only [if_neg zero, readExponent_repr exponent]

/-- A text without an exponent is always read. -/
theorem ofText_mantissa (negative : Bool) (spelled : MantissaText mantissa whole fraction)
    (nonempty : whole ++ fraction ≠ []) (all : (whole ++ fraction).all Char.isDigit = true) :
    ofText (String.ofList (Text.signed negative mantissa)) =
      .ok ⟨Numeral.withSign negative (Numeral.valueOf 10 (whole ++ fraction)), -fraction.length⟩ := by
  have none : powerText 0 = [] := rfl
  have read := read?_mantissa negative 0 spelled nonempty all
  rw [none, List.append_nil] at read
  rw [ofText_eq_ok_iff, String.toList_ofList, read, ← zero_sub (fraction.length : ℤ)]
  rfl

end WrittenDecimal

end SymbolicKernel

import SymbolicKernel.Proofs.Literal.Reading
import SymbolicKernel.Proofs.Number.Opposite
import SymbolicKernel.Proofs.Number.Whole

/-!
The precision of a real that is made of a text alone. The number is read of the text without the blanks around it, but
its digits are counted in the text with them, and the exponent is looked for in both. Main statement:
`RealSource.precision_follows_significant_digits`.
-/
namespace SymbolicKernel

namespace Text

variable {c : Char}

/-- Only blanks are taken off by trimming. -/
theorem eq_append_trim (text : List Char) :
    ∃ front back, text = front ++ trim text ++ back ∧ (∀ c ∈ front, isBlank c = true) ∧
      ∀ c ∈ back, isBlank c = true := by
  have left : text.takeWhile isBlank ++ text.dropWhile isBlank = text := List.takeWhile_append_dropWhile
  have right : (text.dropWhile isBlank).reverse.takeWhile isBlank ++ (text.dropWhile isBlank).reverse.dropWhile isBlank =
      (text.dropWhile isBlank).reverse := List.takeWhile_append_dropWhile
  refine ⟨text.takeWhile isBlank, ((text.dropWhile isBlank).reverse.takeWhile isBlank).reverse, ?_, ?_, ?_⟩
  · rw [trim, List.append_assoc, ← List.reverse_append, right, List.reverse_reverse, left]
  · exact fun c => List.mem_takeWhile_imp
  · exact fun c member => List.mem_takeWhile_imp (List.mem_reverse.mp member)

theorem isDigit_of_isBlank (blank : isBlank c = true) : c.isDigit = false := by
  by_contra digit
  rw [isBlank_of_isPlain (isPlain_of_isDigit (by simpa using digit))] at blank
  cases blank

end Text

namespace Spelling

variable {s : Spelling} {digits : ℕ}

/-- Number of digits from the first that is not zero on. -/
def significant (s : Spelling) : ℕ := ((s.whole ++ s.fraction).dropWhile (· = '0')).length

/-- All exponents on the way from a text to a number of so many digits are numbers of 64 bits: that of the last digit, and
that of the decimal whose zeros are stripped and which is rounded. -/
def InRange (s : Spelling) (digits : ℕ) : Prop := s.Fits ∧ s.written.Fits digits

theorem InRange.written_number (range : s.InRange digits) :
    (s.written.significand : ℚ) * 10 ^ s.written.exponent = s.number := by
  rw [s.written_exponent_eq_iff.mpr range.1, Spelling.written_number]

theorem InRange.toRat_ofWritten (range : s.InRange digits) : (Decimal.ofWritten s.written).toRat = s.number := by
  rw [Decimal.ofWritten_of_fits range.2, Decimal.toRat_ofParts, range.written_number]

end Spelling

namespace WrittenDecimal

variable {text front back sign mantissa whole fraction : List Char} {negative : Bool} {s : Spelling}

theorem IsClear.append (left : IsClear front) (right : IsClear back) : IsClear (front ++ back) :=
  List.forall_mem_append.mpr ⟨left, right⟩

theorem isClear_of_isBlank (blank : ∀ c ∈ text, Text.isBlank c = true) : IsClear text := by
  intro c member
  have apart : Text.blanks.all (fun c => c ≠ '*' ∧ c ∉ ['e', 'E']) = true := by decide
  have listed : c ∈ Text.blanks := by simpa [Text.isBlank] using blank c member
  exact of_decide_eq_true (List.all_eq_true.mp apart c listed)

theorem filter_isDigit_of_isBlank (blank : ∀ c ∈ text, Text.isBlank c = true) : text.filter Char.isDigit = [] := by
  rw [List.filter_eq_nil_iff]
  intro c member digit
  rw [Text.isDigit_of_isBlank (blank c member)] at digit
  cases digit

theorem filter_isDigit_mantissa (signed : SignText sign negative) (spelled : MantissaText mantissa whole fraction)
    (all : (whole ++ fraction).all Char.isDigit = true) :
    (sign ++ mantissa).filter Char.isDigit = whole ++ fraction := by
  have digits : (whole ++ fraction).filter Char.isDigit = whole ++ fraction := by
    rw [List.filter_eq_self]
    exact List.all_eq_true.mp all
  have unsigned : sign.filter Char.isDigit = [] := by cases signed <;> rfl
  rw [List.filter_append, unsigned, List.nil_append]
  cases spelled with
  | whole => rwa [List.append_nil] at digits ⊢
  | pointed =>
    rw [List.filter_append] at digits
    rw [List.filter_append, List.filter_cons_of_neg (by decide), digits]

/-- The blanks around a text, its sign and its exponent have no part in the digits that are counted. -/
theorem filter_splitExponent (spells : Spells Behind (Text.trim text) s) :
    (splitExponent text).1.filter Char.isDigit = s.whole ++ s.fraction := by
  obtain ⟨front, back, around, before, after⟩ := Text.eq_append_trim text
  generalize Text.trim text = body at around spells
  obtain ⟨negative, whole, fraction, exponent⟩ := s
  obtain ⟨signed, spelled, nonempty, all, behind⟩ := spells
  have clear := (isClear_of_isBlank before).append (isClear_mantissa signed spelled all)
  have digits := filter_isDigit_mantissa signed spelled all
  cases behind with
  | nothing =>
    rw [List.append_nil] at around
    rw [around, splitExponent_of_isClear (clear.append (isClear_of_isBlank after)), List.filter_append,
      List.filter_append, digits, filter_isDigit_of_isBlank before, filter_isDigit_of_isBlank after, List.append_nil]
    rfl
  | power marked read =>
    have split := splitExponent_append clear ((isClear_of_readExponent read).append (isClear_of_isBlank after)) marked
    simp only [List.append_assoc] at around split
    rw [around, split, ← List.append_assoc, List.append_assoc, List.filter_append, digits, filter_isDigit_of_isBlank before]
    rfl

end WrittenDecimal

namespace RealSource

open WrittenDecimal (Behind)

/-- The length in bytes of a text without each `0.` in it. -/
def textWidth (text : String) : ℕ := (String.ofList (dropZeroPoints text.toList)).utf8ByteSize

/-- The digits of precision that a text asks for: its significant digits, or its width if it has none. -/
def askedDigits (text : String) (s : Spelling) : ℕ := if s.significant = 0 then textWidth text else s.significant

variable {text text' : String} {s s' : Spelling}

theorem textBits_eq (spells : Spells Behind (Text.trim text.toList) s) :
    textBits text = max (Precision.digitsToBits (askedDigits text s)) Precision.machineBits := by
  have worth : Precision.bitsToDigits Precision.machineBits = 15 := by decide +kernel
  rw [textBits, WrittenDecimal.filter_splitExponent spells, askedDigits, worth]
  change (if s.significant = 0 then _ else Precision.digitsToBits (max s.significant 15)) = _
  by_cases zero : s.significant = 0
  · rw [if_pos zero, if_pos zero]
    rfl
  · rw [if_neg zero, if_neg zero]
    rcases le_or_gt s.significant 15 with few | many
    · have small := Precision.machineBits_lt_digitsToBits_iff.not.mpr (not_lt.mpr few)
      rw [max_eq_right few, max_eq_right (not_lt.mp small), Precision.digitsToBits_fifteen]
    · have large := Precision.machineBits_lt_digitsToBits_iff.mpr many
      rw [max_eq_left many.le, max_eq_left large.le]

/-- What is made of a text that is read. -/
theorem toReal_text (spells : Spells Behind (Text.trim text.toList) s) :
    toReal (.text text) none =
      if 15 < askedDigits text s then
        .ok (.precise (.ofWritten s.written (Precision.digitsToBits (askedDigits text s))))
      else (MachineReal.ofDouble (Double.ofRat (Decimal.ofWritten s.written).toRat)).map .machine := by
  have read : WrittenDecimal.ofText text = .ok s.written :=
    WrittenDecimal.ofText_eq_ok_iff.mpr (WrittenDecimal.read?_of_spells spells)
  have asks : Precision.machineBits < Precision.digitsToBits (askedDigits text s) ↔ 15 < askedDigits text s :=
    Precision.machineBits_lt_digitsToBits_iff
  change (if Precision.machineBits < textBits text then (toPrecise (textBits text) (.text text)).map RealNumber.precise
    else (toMachine (.text text)).map RealNumber.machine) = _
  rw [textBits_eq spells]
  by_cases many : 15 < askedDigits text s
  · have bits := max_eq_left (asks.mpr many).le
    rw [if_pos many, bits, if_pos (asks.mpr many), toPrecise, read]
    simp only [Except.map]
  · have bits := max_eq_right (not_lt.mp (asks.not.mpr many))
    rw [if_neg many, bits, if_neg (lt_irrefl _), toMachine, MachineReal.ofText, read, ← Decimal.toDouble_eq_ofRat]
    simp only [bind, Except.bind]

theorem askedDigits_congr (whole : s'.whole = s.whole) (fraction : s'.fraction = s.fraction)
    (width : s.significant = 0 → textWidth text' = textWidth text) : askedDigits text' s' = askedDigits text s := by
  have digits : s'.significant = s.significant := by rw [Spelling.significant, whole, fraction, Spelling.significant]
  rw [askedDigits, askedDigits, digits]
  split
  · rename_i zero
    exact width zero
  · rfl

/-- Texts that ask for as many digits become numbers of one kind and of one precision. -/
theorem kind_and_precision_eq {x x' : RealNumber} (spells : Spells Behind (Text.trim text.toList) s)
    (spells' : Spells Behind (Text.trim text'.toList) s') (asked : askedDigits text' s' = askedDigits text s)
    (made : toReal (.text text) none = .ok x) (made' : toReal (.text text') none = .ok x') :
    x'.kind = x.kind ∧ x'.precision = x.precision := by
  rw [toReal_text spells] at made
  rw [toReal_text spells', asked] at made'
  by_cases many : 15 < askedDigits text s
  · rw [if_pos many] at made made'
    cases made
    cases made'
    simp only [RealNumber.kind, RealNumber.precision, PrecisionReal.ofWritten, and_self]
  · rw [if_neg many] at made made'
    obtain ⟨_, _, rfl⟩ := Except.map_ok_iff.mp made
    obtain ⟨_, _, rfl⟩ := Except.map_ok_iff.mp made'
    exact ⟨rfl, rfl⟩

/-- Spellings that differ in the sign are read as opposite numbers, if they are read to one precision. -/
theorem toReal_text_opposite (spells : Spells Behind (Text.trim text.toList) s)
    (spells' : Spells Behind (Text.trim text'.toList) s') (asked : askedDigits text' s' = askedDigits text s)
    (opposite : s.written.Opposite s'.written) :
    Except.Related NumberError.SameKind RealNumber.Opposite (toReal (.text text) none) (toReal (.text text') none) := by
  rw [toReal_text spells, toReal_text spells', asked, Decimal.ofWritten_neg opposite, Decimal.toRat_neg]
  split
  · exact .ok (.precise (PrecisionReal.ofWritten_opposite opposite _))
  · have rounded := MachineReal.ofDouble_opposite (.ofRat (Decimal.ofWritten s.written).toRat) (.ofRat _)
    exact rounded.map fun _ _ => .machine

/-- A text that is read becomes a machine real if it asks for at most fifteen digits, and else a real of as many bits as
the digits are worth. It asks for its significant digits, the blanks around it, its sign and its exponent left aside,
so texts of the same digits become numbers of one kind and of one precision, and those of opposite signs become opposite
numbers. A text whose digits are all zero asks for its width instead, so of such texts this is so if they are equally
wide. The number is the one that is written, rounded, if its exponents keep to 64 bits. -/
theorem precision_follows_significant_digits (spells : Spells Behind (Text.trim text.toList) s) :
    (askedDigits text s ≤ 15 →
      (s.InRange 0 → overflowBound ≤ |s.number|) ∧ toReal (.text text) none = .error .overflow ∨
        ∃ x, toReal (.text text) none = .ok (.machine x) ∧ (s.InRange 0 → (Double.finite x).IsNearest s.number)) ∧
    (15 < askedDigits text s →
      ∃ r, toReal (.text text) none = .ok (.precise r) ∧ r.bits = Precision.digitsToBits (askedDigits text s) ∧
        (s.InRange r.digits → r.toRat = roundDigits r.digits s.number)) ∧
    ∀ (text' : String) (s' : Spelling), Spells Behind (Text.trim text'.toList) s' →
      s'.whole = s.whole → s'.fraction = s.fraction → (s.significant = 0 → textWidth text' = textWidth text) →
        (∀ x x', toReal (.text text) none = .ok x → toReal (.text text') none = .ok x' →
          x'.kind = x.kind ∧ x'.precision = x.precision) ∧
        (s'.negative = !s.negative → s'.exponent = s.exponent →
          Except.Related NumberError.SameKind RealNumber.Opposite (toReal (.text text) none)
            (toReal (.text text') none)) := by
  refine ⟨?_, ?_, ?_⟩
  · intro few
    rw [toReal_text spells, if_neg (not_lt.mpr few)]
    rcases MachineReal.ofDouble_ofRat (Decimal.ofWritten s.written).toRat with ⟨large, failed⟩ | ⟨x, rounded, nearest⟩
    · rw [failed]
      refine .inl ⟨fun range => ?_, rfl⟩
      rwa [range.toRat_ofWritten] at large
    · rw [rounded]
      refine .inr ⟨x, rfl, fun range => ?_⟩
      rwa [range.toRat_ofWritten] at nearest
  · intro many
    rw [toReal_text spells, if_pos many]
    refine ⟨_, rfl, rfl, fun range => ?_⟩
    rw [← range.written_number]
    exact PrecisionReal.toRat_ofWritten range.2
  · intro text' s' spells' whole fraction width
    have asked := askedDigits_congr whole fraction width
    refine ⟨fun _ _ made made' => kind_and_precision_eq spells spells' asked made made', ?_⟩
    intro sign exponent
    refine toReal_text_opposite spells spells' asked ⟨?_, ?_⟩
    · simp only [Spelling.written, whole, fraction, sign, Numeral.withSign_not]
    · simp only [Spelling.written, fraction, exponent]

/-- Seventeen digits with a minus sign behind a blank, and without one and with another mark before the exponent. -/
theorem precision_follows_significant_digits_of_seventeen :
    let s : Spelling := ⟨true, "12345678901234567".toList, [], 2⟩
    let s' : Spelling := ⟨false, "12345678901234567".toList, [], 2⟩
    Spells Behind (Text.trim " -12345678901234567e2".toList) s ∧
      Spells Behind (Text.trim "12345678901234567*^+2".toList) s' ∧
      15 < askedDigits " -12345678901234567e2" s ∧ 15 < askedDigits "12345678901234567*^+2" s' ∧
      ∃ r r', toReal (.text " -12345678901234567e2") none = .ok (.precise r) ∧
        toReal (.text "12345678901234567*^+2") none = .ok (.precise r') ∧ r.Opposite r' := by
  intro s s'
  have spells : Spells Behind (Text.trim " -12345678901234567e2".toList) s := by
    have trimmed : Text.trim " -12345678901234567e2".toList = ['-'] ++ s.whole ++ (['e'] ++ ['2']) := by decide +kernel
    have power : Behind (['e'] ++ ['2']) 2 := .power (by decide) (by decide)
    rw [trimmed]
    exact .intro .minus (.whole _) (by decide) (by decide) power
  have spells' : Spells Behind (Text.trim "12345678901234567*^+2".toList) s' := by
    have trimmed : Text.trim "12345678901234567*^+2".toList = [] ++ s'.whole ++ (['*', '^'] ++ ['+', '2']) := by
      decide +kernel
    have power : Behind (['*', '^'] ++ ['+', '2']) 2 := .power (by decide) (by decide)
    rw [trimmed]
    exact .intro .none (.whole _) (by decide) (by decide) power
  have many : 15 < askedDigits " -12345678901234567e2" s := by decide +kernel
  have many' : 15 < askedDigits "12345678901234567*^+2" s' := by decide +kernel
  have significant : s.significant ≠ 0 := by decide +kernel
  obtain ⟨_, precise, alike⟩ := precision_follows_significant_digits spells
  obtain ⟨_, precise', _⟩ := precision_follows_significant_digits spells'
  obtain ⟨r, made, _⟩ := precise many
  obtain ⟨r', made', _⟩ := precise' many'
  obtain ⟨_, negated⟩ := alike _ s' spells' rfl rfl fun zero => absurd zero significant
  have related := negated rfl rfl
  rw [made, made'] at related
  cases related with
  | ok here =>
    cases here with
    | precise opposite => exact ⟨spells, spells', many, many', r, r', made, made', opposite⟩

/-- Fifteen zeros behind the point are a machine real, but with a sign, a blank or an exponent they are not. -/
theorem zeros_ask_for_width :
    (toReal (.text "0.000000000000000") none).map RealNumber.kind = .ok .machineReal ∧
      (toReal (.text "-0.000000000000000") none).map RealNumber.kind = .ok .precisionReal ∧
      (toReal (.text " 0.000000000000000") none).map RealNumber.kind = .ok .precisionReal ∧
      (toReal (.text "0.000000000000000e0") none).map RealNumber.kind = .ok .precisionReal := by
  decide +kernel

end RealSource

end SymbolicKernel

import SymbolicKernel.Double.Reader
import SymbolicKernel.Proofs.Decimal.Reader

/-!
Reading back a double from a text that was written with a sign, a point and an exponent.
Main statement: `ofText?_mantissa`.
-/
namespace SymbolicKernel.Double

open WrittenDecimal

variable {mantissa whole fraction body : List Char} {negative : Bool} {exponent : ℤ} {mark : Char}

/-- A row of digits is split off in front of a mark. -/
theorem takeWhile_digits (digits : ∀ c ∈ body, c.isDigit = true) (marked : mark.isDigit = false) (rest : List Char) :
    (body ++ mark :: rest).takeWhile Char.isDigit = body ∧
      (body ++ mark :: rest).dropWhile Char.isDigit = mark :: rest := by
  rw [List.takeWhile_append_of_pos digits, List.dropWhile_append_of_pos digits, List.takeWhile_cons_of_neg (by simp [marked]),
    List.dropWhile_cons_of_neg (by simp [marked]), List.append_nil]
  exact ⟨rfl, rfl⟩

theorem takeWhile_powerText (digits : ∀ c ∈ body, c.isDigit = true) (exponent : ℤ) :
    (body ++ powerText exponent).takeWhile Char.isDigit = body ∧
      (body ++ powerText exponent).dropWhile Char.isDigit = powerText exponent := by
  unfold powerText
  split
  · rw [List.append_nil, List.takeWhile_eq_self_iff, List.dropWhile_eq_nil_iff]
    exact ⟨digits, digits⟩
  · exact takeWhile_digits digits (by decide) _

theorem readDecimal_mantissa (spelled : MantissaText mantissa whole fraction) (nonempty : whole ++ fraction ≠ [])
    (all : (whole ++ fraction).all Char.isDigit = true) :
    readDecimal (mantissa ++ powerText exponent) =
      some (Numeral.valueOf 10 (whole ++ fraction), exponent - fraction.length) := by
  have digits : ∀ c ∈ whole ++ fraction, c.isDigit = true := List.all_eq_true.mp all
  have some : ¬ (whole = [] ∧ fraction = []) := by simpa using nonempty
  cases spelled with
  | whole =>
    rw [List.append_nil] at digits
    obtain ⟨before, rest⟩ := takeWhile_powerText digits exponent
    by_cases zero : exponent = 0
    · have nothing : powerText exponent = [] := if_pos zero
      rw [readDecimal, before, rest, nothing, zero]
      exact if_neg some
    · have power : powerText exponent = 'E' :: exponent.repr.toList := if_neg zero
      rw [readDecimal, before, rest, power]
      simpa [Numeral.readInt_repr] using nonempty
  | pointed =>
    have point : '.'.isDigit = false := by decide
    obtain ⟨before, after⟩ := takeWhile_digits (fun c member => digits c (List.mem_append_left _ member)) point
      (fraction ++ powerText exponent)
    obtain ⟨behind, rest⟩ := takeWhile_powerText (fun c member => digits c (List.mem_append_right _ member)) exponent
    rw [List.append_assoc, List.cons_append, readDecimal, before, after]
    simp only [behind, rest, if_neg some]
    by_cases zero : exponent = 0
    · have none : powerText exponent = [] := if_pos zero
      rw [none, zero]
      rfl
    · have power : powerText exponent = 'E' :: exponent.repr.toList := if_neg zero
      simp only [power, or_true, if_true, Numeral.readInt_repr, Option.map_some]

theorem toLower_of_isDigit {c : Char} (digit : c.isDigit = true) : c.toLower = c := by
  have most : c ≤ '9' := ((Numeral.isDigit_iff c).mp digit).2
  have upper : ¬ ('A'.val ≤ c.val ∧ c.val ≤ 'Z'.val) := by
    rintro ⟨least, _⟩
    exact absurd (UInt32.le_trans least most) (by decide)
  exact dif_neg upper

/-- The words that are read as doubles all have a letter that no decimal has. -/
theorem toLower_ne_of_mem {c : Char} (member : c ∈ mantissa ++ powerText exponent)
    (plain : ∀ c ∈ mantissa, Text.isPlain c = true) : c.toLower ≠ 'n' := by
  have known : c = 'E' ∨ Text.isPlain c = true := by
    rcases List.mem_append.mp member with inside | behind
    · exact .inr (plain c inside)
    · exact mem_powerText behind
  simp only [Text.isPlain, Bool.or_eq_true, beq_iff_eq] at known
  rcases known with rfl | (digit | rfl) | rfl
  · decide
  · rw [toLower_of_isDigit digit]
    rintro rfl
    exact absurd digit (by decide)
  · decide
  · decide

/-- The text of a decimal is read as the double nearest to it. -/
theorem ofText?_mantissa (negative : Bool) (exponent : ℤ) (spelled : MantissaText mantissa whole fraction)
    (nonempty : whole ++ fraction ≠ []) (all : (whole ++ fraction).all Char.isDigit = true) :
    ofText? (String.ofList (Text.signed negative mantissa ++ powerText exponent)) =
      some (ofCode negative (nearestDecimalCode (Numeral.valueOf 10 (whole ++ fraction)) (exponent - fraction.length))) := by
  have begun : mantissa ≠ [] := by
    cases spelled with
    | whole => rwa [List.append_nil] at nonempty
    | pointed => simp
  have unsigned : ∀ c ∈ (mantissa ++ powerText exponent).head?, c ≠ '-' ∧ c ≠ '+' := by
    rw [List.head?_append_of_ne_nil _ begun]
    exact head_mantissaText spelled all
  have signed : Text.signed negative mantissa ++ powerText exponent =
      Text.signed negative (mantissa ++ powerText exponent) := by
    cases negative <;> rfl
  have noWord : ∀ word : String, 'n' ∈ word.toList →
      String.ofList ((mantissa ++ powerText exponent).map Char.toLower) ≠ word := by
    rintro _ letter rfl
    rw [String.toList_ofList] at letter
    obtain ⟨c, member, same⟩ := List.mem_map.mp letter
    exact toLower_ne_of_mem member (isPlain_mantissa spelled all) same
  rw [ofText?, String.toList_ofList, signed, Numeral.splitSign_signed unsigned]
  simp only [if_neg (noWord "nan" (by decide)), noWord "inf" (by decide), noWord "infinity" (by decide), or_self,
    if_false, readDecimal_mantissa spelled nonempty all, Option.map_some]

/-- A whole number is read as the double nearest to it. -/
theorem ofText?_repr (n : ℕ) : ofText? n.repr = some (ofInt n) := by
  have digits := Numeral.isDigit_decimalDigits n
  have nonempty := Numeral.decimalDigits_ne_nil n
  rw [← List.append_nil (Numeral.decimalDigits n)] at digits nonempty
  have read := ofText?_mantissa false 0 (.whole _) nonempty digits
  have text : String.ofList (Text.signed false (Numeral.decimalDigits n) ++ powerText 0) = n.repr := by
    rw [Nat.repr_eq_ofList_toDigits]
    exact congrArg String.ofList (List.append_nil _)
  have sign : decide ((n : ℤ) < 0) = false := decide_eq_false (Int.not_lt.mpr (Int.natCast_nonneg n))
  rw [text, List.append_nil, Numeral.valueOf_decimalDigits] at read
  rw [read, ofInt, ofDecimal, sign]
  rfl

end SymbolicKernel.Double

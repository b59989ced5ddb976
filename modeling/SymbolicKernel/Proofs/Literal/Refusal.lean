import SymbolicKernel.Proofs.Decimal.Grammar
import SymbolicKernel.Proofs.Literal.Magnitude

/-!
Which literals are refused. Main statement: `refused_iff`, those that are not written properly, and those whose count of
digits leaves the range of doubles.
-/
namespace SymbolicKernel

namespace Literal

/-- Digits of a base, at least one of them, with at most one point among or around them. -/
def DigitsText (base : ℕ) (text : List Char) : Prop :=
  ∃ whole fraction, MantissaText text whole fraction ∧ whole ++ fraction ≠ [] ∧
    (whole ++ fraction).all (Numeral.isDigitOf base) = true

/-- A suffix asks for a machine real, or for a finite number of digits; behind a back-quote of its own, for as many
behind the point. -/
inductive SuffixText : String → Prop
  | machine : SuffixText ""
  | precision {text : String} {n : MachineReal} : Double.ofText? text = some (.finite n) → SuffixText text
  | accuracy {text : String} {n : MachineReal} : Double.ofText? text = some (.finite n) → SuffixText ("`" ++ text)

/-- A literal as it should be written. -/
structure IsProper (l : Literal) : Prop where
  base : 2 ≤ l.base ∧ l.base ≤ 36
  digits : DigitsText l.base l.digits.toList
  suffix : ∀ text, l.suffix = some text → SuffixText text

/-- A count of digits that is no double: of a value that is none itself, or of too many digits of another base. -/
inductive CountsPastRange (l : Literal) : Prop
  | accuracy {text : String} : l.suffix = some ("`" ++ text) → overflowBound ≤ |l.value| → CountsPastRange l
  | places : l.suffix = none → l.hasPoint = true → l.base ≠ 10 → overflowBound ≤ |l.value| → CountsPastRange l
  | scaled {text : String} {n perPlace : MachineReal} : l.suffix = some text ∨ l.suffix = some ("`" ++ text) →
      Double.ofText? text = some (.finite n) → l.base ≠ 10 → (Double.ofInt l.base).log10 = .finite perPlace →
      overflowBound ≤ |n.toRat * perPlace.toRat| → CountsPastRange l

section Count

variable {magnitude : Double} {n : MachineReal} {v : ℚ}

/-- Digits behind the point are counted for every number of them, unless the value is out of range. -/
theorem addMagnitude_finite?_iff (rounds : magnitude.Rounds v) (nonneg : 0 ≤ v) :
    (addMagnitude (.finite n) magnitude).finite? = none ↔ overflowBound ≤ v := by
  constructor
  · intro past
    by_contra small
    by_cases lost : 2 * v ≤ leastDouble
    · rw [addMagnitude_of_lost rounds (by rwa [abs_of_nonneg nonneg])] at past
      cases past
    · obtain ⟨visible, y, log, near, order⟩ := rounds.log10 (not_le.mp lost) (not_le.mp small)
      have size : |(y.toRat : ℝ)| ≤ 361 := by linarith [abs_sub_abs_le_abs_sub (y.toRat : ℝ) (Real.logb 10 v)]
      have few : |y.toRat| < 2 ^ 970 := by
        have bound : |y.toRat| ≤ 361 := by exact_mod_cast size
        calc |y.toRat| ≤ 2 ^ 9 := bound.trans (by norm_num)
          _ < 2 ^ 970 := pow_lt_pow_right₀ (by norm_num) (by norm_num)
      obtain ⟨k, sum⟩ := Double.exists_add_finite n few
      rw [addMagnitude, visible, if_neg Bool.false_ne_true, log, sum] at past
      cases past
  · intro large
    rw [addMagnitude_of_large rounds large]
    rfl

/-- A count is lost with the number of digits that was asked for, or with the magnitude. -/
theorem addMagnitude_finite?_eq_none_iff {asked : Double} (rounds : magnitude.Rounds v) (nonneg : 0 ≤ v) :
    (addMagnitude asked magnitude).finite? = none ↔ asked.finite? = none ∨ overflowBound ≤ v := by
  have kept : asked.finite? = none → (addMagnitude asked magnitude).finite? = none := by
    intro past
    rw [addMagnitude]
    split
    · exact past
    · exact Double.finite?_add_of_none past _
  cases asked with
  | finite n =>
    rw [addMagnitude_finite?_iff rounds nonneg]
    exact ⟨.inr, fun past => past.resolve_left (Option.some_ne_none n)⟩
  | infinite negative => exact iff_of_true (kept rfl) (.inl rfl)
  | nan => exact iff_of_true (kept rfl) (.inl rfl)

end Count

/-- A result is refused if something holds, and else there is one. -/
def RefusedIf (l : Literal) {α : Type} (made : Except LowerError α) (p : Prop) : Prop :=
  p ∧ made = l.refuse ∨ ¬ p ∧ ∃ d, made = .ok d

variable {l : Literal} {text : String} {n : MachineReal} {p q : Prop}

theorem RefusedIf.congr {α : Type} {made : Except LowerError α} (refused : l.RefusedIf made p) (same : p ↔ q) :
    l.RefusedIf made q := by
  rwa [← propext same]

theorem refusedIf_finiteDigits (digits : Double) (f : Double → Draft) :
    l.RefusedIf ((l.finiteDigits digits).map f) (digits.finite? = none) := by
  cases digits with
  | finite x => exact .inr ⟨nofun, _, rfl⟩
  | infinite negative => exact .inl ⟨rfl, rfl⟩
  | nan => exact .inl ⟨rfl, rfl⟩

theorem isWellFormed_iff (l : Literal) :
    l.isWellFormed = true ↔ (2 ≤ l.base ∧ l.base ≤ 36) ∧ DigitsText l.base l.digits.toList := by
  constructor
  · intro wellFormed
    obtain ⟨nonempty, all⟩ := isDigitOf_parts wellFormed
    refine ⟨base_of_isWellFormed wellFormed, l.parts.1, l.parts.2, ?_, nonempty, all⟩
    have pointed := digits_pointed l
    cases point : l.hasPoint with
    | true =>
      rw [point, if_pos rfl] at pointed
      rw [pointed]
      exact .pointed _ _
    | false =>
      rw [parts_of_no_point point]
      exact .whole _
  · rintro ⟨base, whole, fraction, spelled, nonempty, all⟩
    have marks : ∀ row : List Char, row.all (Numeral.isDigitOf l.base) = true → row.filter (· ≠ '.') = row ∧ '.' ∉ row := by
      intro row all
      have other : ∀ c ∈ row, c ≠ '.' := fun c member =>
        (Numeral.ne_mark_of_isDigitOf (List.all_eq_true.mp all c member)).2.2.2
      exact ⟨List.filter_eq_self.mpr fun c member => decide_eq_true (other c member), fun member => other _ member rfl⟩
    have digits : l.digits.toList.filter (· ≠ '.') = whole ++ fraction ∧ l.digits.toList.count '.' ≤ 1 := by
      generalize l.digits.toList = text at spelled
      cases spelled with
      | whole =>
        rw [List.append_nil] at all ⊢
        obtain ⟨kept, none⟩ := marks _ all
        exact ⟨kept, (List.count_eq_zero.mpr none).trans_le zero_le_one⟩
      | pointed =>
        rw [List.all_append, Bool.and_eq_true] at all
        obtain ⟨kept, none⟩ := marks _ all.1
        obtain ⟨kept', none'⟩ := marks _ all.2
        refine ⟨by rw [List.filter_append, List.filter_cons_of_neg (by simp), kept, kept'], ?_⟩
        rw [List.count_append, List.count_cons_self, List.count_eq_zero.mpr none, List.count_eq_zero.mpr none']
    simp only [isWellFormed, digits.1, Bool.and_eq_true, decide_eq_true_eq, Bool.not_eq_true', List.isEmpty_eq_false_iff]
    exact ⟨⟨⟨base, digits.2⟩, nonempty⟩, all⟩

section Kinds

variable {perPlace : MachineReal}

theorem ofText?_marked (text : String) : Double.ofText? ("`" ++ text) = none := by
  rw [← String.ofList_toList (s := "`" ++ text), String.toList_append]
  exact Double.ofText?_of_mark _

theorem countsPastRange_absent (suffix : l.suffix = none) :
    l.CountsPastRange ↔ l.hasPoint = true ∧ l.base ≠ 10 ∧ overflowBound ≤ |l.value| := by
  constructor
  · rintro (⟨given, _⟩ | ⟨_, point, other, large⟩ | ⟨given, _⟩)
    · rw [suffix] at given
      cases given
    · exact ⟨point, other, large⟩
    · rw [suffix] at given
      rcases given with given | given <;> cases given
  · rintro ⟨point, other, large⟩
    exact .places suffix point other large

theorem countsPastRange_accuracy (suffix : l.suffix = some ("`" ++ text)) (number : Double.ofText? text = some (.finite n))
    (log : (Double.ofInt l.base).log10 = .finite perPlace) :
    l.CountsPastRange ↔
      overflowBound ≤ |l.value| ∨ l.base ≠ 10 ∧ overflowBound ≤ |n.toRat * perPlace.toRat| := by
  constructor
  · rintro (⟨_, large⟩ | ⟨absent, _⟩ | ⟨given, number', other, log', large⟩)
    · exact .inl large
    · rw [suffix] at absent
      cases absent
    · rw [suffix] at given
      rcases given with given | given
      · rw [← Option.some.inj given, ofText?_marked] at number'
        cases number'
      · rw [Option.some.injEq, String.append_right_inj] at given
        rw [← given, number] at number'
        rw [log] at log'
        cases number'
        cases log'
        exact .inr ⟨other, large⟩
  · rintro (large | ⟨other, large⟩)
    · exact .accuracy suffix large
    · exact .scaled (.inr suffix) number other log large

theorem countsPastRange_precision (suffix : l.suffix = some text) (number : Double.ofText? text = some (.finite n))
    (log : (Double.ofInt l.base).log10 = .finite perPlace) :
    l.CountsPastRange ↔ l.base ≠ 10 ∧ overflowBound ≤ |n.toRat * perPlace.toRat| := by
  constructor
  · rintro (⟨given, _⟩ | ⟨absent, _⟩ | ⟨given, number', other, log', large⟩)
    · rw [suffix, Option.some.injEq] at given
      rw [given, ofText?_marked] at number
      cases number
    · rw [suffix] at absent
      cases absent
    · rw [suffix] at given
      rcases given with given | given
      · rw [← Option.some.inj given, number] at number'
        rw [log] at log'
        cases number'
        cases log'
        exact ⟨other, large⟩
      · rw [Option.some.inj given, ofText?_marked] at number
        cases number
  · rintro ⟨other, large⟩
    exact .scaled (.inl suffix) number other log large

theorem not_countsPastRange_machine (suffix : l.suffix = some "") : ¬ l.CountsPastRange := by
  rintro (⟨given, _⟩ | ⟨absent, _⟩ | ⟨given, number, _⟩)
  · rw [suffix, Option.some.injEq, ← String.toList_inj, String.toList_append] at given
    cases given
  · rw [suffix] at absent
    cases absent
  · rw [suffix] at given
    rcases given with given | given
    · rw [← Option.some.inj given, Double.ofText?_empty] at number
      cases number
    · rw [Option.some.injEq, ← String.toList_inj, String.toList_append] at given
      cases given

theorem refusedIf_absent (wellFormed : l.isWellFormed = true) (power : l.lastExponent.natAbs < 2 ^ 32)
    (exponent : l.exponent < 2 ^ 63) (suffix : l.suffix = none) :
    l.RefusedIf l.toDraft (l.hasPoint = true ∧ l.base ≠ 10 ∧ overflowBound ≤ |l.value|) := by
  have base := base_of_isWellFormed wellFormed
  rw [toDraft_eq wellFormed]
  cases point : l.hasPoint with
  | false =>
    have built : l.power l.exponent = .ok ((l.base : ℤ) ^ l.exponent.natAbs) := by
      rw [lastExponent, parts_of_no_point point] at power
      exact if_pos (by simpa using power)
    rw [if_pos ⟨rfl, suffix⟩, exact_eq wellFormed point, built]
    exact .inr ⟨fun inexact => Bool.false_ne_true inexact.1, _, rfl⟩
  | true =>
    rw [if_neg (by simp)]
    by_cases ten : l.base = 10
    · rw [if_pos ten, classifyDecimal, suffixKind_absent suffix]
      exact .inr ⟨fun inexact => inexact.2.1 ten, _, rfl⟩
    · rw [if_neg ten, if_pos power, classifyRatio_absent suffix]
      have rounds := (ratio_rounds (by omega : 0 < l.base)).abs
      obtain ⟨n, places, _, moderate⟩ := exists_places exponent power
      obtain ⟨scaled, product, _⟩ := exists_scaled base moderate
      rw [places, product]
      by_cases large : overflowBound ≤ |l.value|
      · rw [addMagnitude_of_large rounds large]
        exact .inl ⟨⟨rfl, ten, large⟩, rfl⟩
      · have counted := (addMagnitude_finite?_iff (n := scaled) rounds (abs_nonneg l.value)).not.mpr large
        obtain ⟨k, count⟩ : ∃ k, addMagnitude (.finite scaled) l.ratioDouble.abs = .finite k := by
          cases count : addMagnitude (.finite scaled) l.ratioDouble.abs with
          | finite k => exact ⟨k, rfl⟩
          | infinite negative => exact absurd (count ▸ rfl) counted
          | nan => exact absurd (count ▸ rfl) counted
        refine .inr ⟨fun past => large past.2.2, ?_⟩
        rw [count]
        simp only
        split
        · exact ⟨_, rfl⟩
        · exact ⟨_, rfl⟩

theorem refusedIf_accuracy (wellFormed : l.isWellFormed = true) (power : l.lastExponent.natAbs < 2 ^ 32)
    (suffix : l.suffix = some ("`" ++ text)) (number : Double.ofText? text = some (.finite n))
    (log : (Double.ofInt l.base).log10 = .finite perPlace) :
    l.RefusedIf l.toDraft (overflowBound ≤ |l.value| ∨ l.base ≠ 10 ∧ overflowBound ≤ |n.toRat * perPlace.toRat|) := by
  have base := base_of_isWellFormed wellFormed
  have nonneg := abs_nonneg l.value
  rw [toDraft_eq wellFormed, if_neg (by simp [suffix])]
  by_cases ten : l.base = 10
  · rw [if_pos ten, classifyDecimal_accuracy suffix number]
    refine (refusedIf_finiteDigits _ _).congr ?_
    rw [addMagnitude_finite?_iff (magnitude_rounds ten) nonneg]
    simp [ten]
  · rw [if_neg ten, if_pos power, classifyRatio_accuracy suffix number, log]
    refine (refusedIf_finiteDigits _ _).congr ?_
    have rounds := (ratio_rounds (by omega : 0 < l.base)).abs
    rw [addMagnitude_finite?_eq_none_iff rounds nonneg, (Double.Rounds.mul n perPlace).finite?_eq_none_iff]
    simp only [ne_eq, ten, not_false_eq_true, true_and, or_comm]

theorem refusedIf_precision (wellFormed : l.isWellFormed = true) (power : l.lastExponent.natAbs < 2 ^ 32)
    (suffix : l.suffix = some text) (number : Double.ofText? text = some (.finite n))
    (log : (Double.ofInt l.base).log10 = .finite perPlace) :
    l.RefusedIf l.toDraft (l.base ≠ 10 ∧ overflowBound ≤ |n.toRat * perPlace.toRat|) := by
  rw [toDraft_eq wellFormed, if_neg (by simp [suffix])]
  by_cases ten : l.base = 10
  · rw [if_pos ten, classifyDecimal_precision suffix number]
    exact .inr ⟨fun past => past.1 ten, _, rfl⟩
  · rw [if_neg ten, if_pos power, classifyRatio_precision suffix number, log]
    refine (refusedIf_finiteDigits _ _).congr ?_
    rw [(Double.Rounds.mul n perPlace).finite?_eq_none_iff]
    simp [ten]

theorem accepted_machine (wellFormed : l.isWellFormed = true) (power : l.lastExponent.natAbs < 2 ^ 32)
    (suffix : l.suffix = some "") : ∃ d, l.toDraft = .ok d := by
  rw [toDraft_eq wellFormed, if_neg (by simp [suffix])]
  by_cases ten : l.base = 10
  · rw [if_pos ten, classifyDecimal, suffixKind_machine suffix]
    exact ⟨_, rfl⟩
  · rw [if_neg ten, if_pos power, classifyRatio, suffixKind_machine suffix]
    exact ⟨_, rfl⟩

theorem refused_of_not_number (wellFormed : l.isWellFormed = true)
    (kind : l.suffixKind = .accuracy text ∨ l.suffixKind = .precision text)
    (other : ∀ n, Double.ofText? text ≠ some (.finite n)) : l.toDraft = l.refuse := by
  have inexact : ¬ (l.hasPoint = false ∧ l.suffix = none) := by
    rintro ⟨_, suffix⟩
    rw [suffixKind_absent suffix] at kind
    rcases kind with kind | kind <;> cases kind
  rw [toDraft_eq wellFormed, if_neg inexact]
  have decimal : l.classifyDecimal l.magnitude = l.refuse := by
    rw [classifyDecimal]
    rcases kind with kind | kind
    · simp only [kind, suffixNumber_of_not_finite other]
      rfl
    · simp only [kind, suffixNumber_of_not_finite other]
      rfl
  have ratio : l.classifyRatio l.ratio.1 l.ratio.2 l.ratioDouble = l.refuse := by
    rw [classifyRatio]
    rcases kind with kind | kind
    · simp only [kind, suffixNumber_of_not_finite other]
      rfl
    · simp only [kind, suffixNumber_of_not_finite other]
      rfl
  rw [decimal, ratio]
  split
  · rfl
  · split <;> rfl

end Kinds

theorem SuffixText.exists_number {given : String} (allowed : SuffixText given) :
    given = "" ∨ ∃ text n, (given = text ∨ given = "`" ++ text) ∧ Double.ofText? text = some (.finite n) := by
  cases allowed with
  | machine => exact .inl rfl
  | precision number => exact .inr ⟨_, _, .inl rfl, number⟩
  | accuracy number => exact .inr ⟨_, _, .inr rfl, number⟩

theorem refusedIf_improper (power : l.lastExponent.natAbs < 2 ^ 32) (exponent : l.exponent < 2 ^ 63) :
    l.RefusedIf l.toDraft (¬ l.IsProper ∨ l.CountsPastRange) := by
  cases wellFormed : l.isWellFormed with
  | false =>
    have improper : ¬ l.IsProper := by
      intro proper
      have written := (isWellFormed_iff l).mpr ⟨proper.base, proper.digits⟩
      rw [wellFormed] at written
      cases written
    exact .inl ⟨.inl improper, toDraft_of_not_isWellFormed wellFormed⟩
  | true =>
    obtain ⟨base, digits⟩ := (isWellFormed_iff l).mp wellFormed
    obtain ⟨perPlace, log, _⟩ := exists_digitsPerPlace base
    have proper : ∀ given, l.suffix = some given → SuffixText given → l.IsProper := by
      intro given suffix allowed
      refine ⟨base, digits, fun text other => ?_⟩
      rw [← Option.some.inj (suffix.symm.trans other)]
      exact allowed
    have settled : ∀ {p : Prop}, l.IsProper → (l.CountsPastRange ↔ p) → l.RefusedIf l.toDraft p →
        l.RefusedIf l.toDraft (¬ l.IsProper ∨ l.CountsPastRange) := by
      intro p proper same refused
      refine refused.congr ?_
      rw [same]
      exact ⟨.inr, fun either => either.resolve_left (not_not_intro proper)⟩
    rcases suffixKind_cases l with ⟨absent, _⟩ | ⟨machine, _⟩ | ⟨text, given, kind⟩ | ⟨text, given, nonempty, unmarked, kind⟩
    · have proper : l.IsProper := ⟨base, digits, fun text given => by rw [absent] at given; cases given⟩
      exact settled proper (countsPastRange_absent absent) (refusedIf_absent wellFormed power exponent absent)
    · refine .inr ⟨?_, accepted_machine wellFormed power machine⟩
      rintro (improper | past)
      · exact improper (proper _ machine .machine)
      · exact not_countsPastRange_machine machine past
    · by_cases number : ∃ n, Double.ofText? text = some (.finite n)
      · obtain ⟨n, number⟩ := number
        exact settled (proper _ given (.accuracy number)) (countsPastRange_accuracy given number log)
          (refusedIf_accuracy wellFormed power given number log)
      · rw [not_exists] at number
        refine .inl ⟨.inl fun proper => ?_, refused_of_not_number wellFormed (.inl kind) number⟩
        rcases (proper.suffix _ given).exists_number with empty | ⟨text', n, same | same, number'⟩
        · rw [← String.toList_inj, String.toList_append] at empty
          cases empty
        · rw [← same, ofText?_marked] at number'
          cases number'
        · rw [String.append_right_inj] at same
          exact number n (by rw [same, number'])
    · by_cases number : ∃ n, Double.ofText? text = some (.finite n)
      · obtain ⟨n, number⟩ := number
        exact settled (proper _ given (.precision number)) (countsPastRange_precision given number log)
          (refusedIf_precision wellFormed power given number log)
      · rw [not_exists] at number
        refine .inl ⟨.inl fun proper => ?_, refused_of_not_number wellFormed (.inr kind) number⟩
        rcases (proper.suffix _ given).exists_number with empty | ⟨text', n, same | same, number'⟩
        · exact nonempty empty
        · exact number n (by rw [same, number'])
        · exact unmarked _ same

/-- A literal whose power can be built is refused just when it is not properly written, or when the count of digits that
its suffix or its places ask for is no double: because the value is out of the range of doubles and is counted by its
order of magnitude, or because so many digits of another base are. It is always refused by its own text. -/
theorem refused_iff (power : l.lastExponent.natAbs < 2 ^ 32) (exponent : l.exponent < 2 ^ 63) :
    ((∃ e, l.toDraft = .error e) ↔ ¬ l.IsProper ∨ l.CountsPastRange) ∧
      ∀ e, l.toDraft = .error e → e = .malformedNumber l.text := by
  rcases refusedIf_improper power exponent with ⟨reason, refused⟩ | ⟨none, d, made⟩
  · rw [refused]
    exact ⟨iff_of_true ⟨_, rfl⟩ reason, fun e same => (Except.error.inj same).symm⟩
  · rw [made]
    exact ⟨iff_of_false nofun none, nofun⟩

/-- A literal in base sixteen without a point and with nothing to ask for behind its back-quotes. -/
theorem refused_iff_of_lone_mark :
    let l := ((decimal "ff").withBase 16).withSuffix "`"
    ¬ l.IsProper ∧ l.toDraft = .error (.malformedNumber "16^^ff``") := by
  intro l
  have marked : Double.ofText? "`" = none := ofText?_marked ""
  have improper : ¬ l.IsProper := by
    intro proper
    rcases (proper.suffix "`" rfl).exists_number with empty | ⟨text, n, same | same, number⟩
    · exact absurd empty (by decide)
    · rw [← same, marked] at number
      cases number
    · have empty : text = "" := by
        rw [← String.toList_inj, String.toList_append] at same
        exact String.toList_eq_nil_iff.mp (List.cons.inj same).2.symm
      rw [empty, Double.ofText?_empty] at number
      cases number
  obtain ⟨refused, reason⟩ := refused_iff (l := l) (by decide) (by decide)
  obtain ⟨e, made⟩ := refused.mpr (.inl improper)
  have text : l.text = "16^^ff``" := by decide
  rw [reason e made, text] at made
  exact ⟨improper, made⟩

/-- A properly written literal is refused because its magnitude is out of the range of doubles, although nothing but its
count of digits depends on that: here twenty behind the point and four hundred before it. -/
theorem refuses_large_magnitude :
    let l := ((decimal "1.5").withExponent 400).withSuffix "`20"
    l.IsProper ∧ l.toDraft = .error (.malformedNumber "1.5``20*^400") := by
  intro l
  let twenty : MachineReal := ⟨false, 0x4034000000000000, by decide⟩
  have number : Double.ofText? "20" = some (.finite twenty) := by decide +kernel
  have suffix : l.suffix = some ("`" ++ "20") := by decide
  have digits : DigitsText l.base l.digits.toList := by
    have spelled : l.digits.toList = ['1'] ++ '.' :: ['5'] := by decide
    rw [spelled]
    exact ⟨['1'], ['5'], .pointed ['1'] ['5'], by decide, by decide⟩
  refine ⟨⟨by decide, digits, ?_⟩, ?_⟩
  · intro text given
    rw [suffix] at given
    cases given
    exact .accuracy number
  · have wellFormed : l.isWellFormed = true := by decide
    have pointed : ¬ (l.hasPoint = false ∧ l.suffix = none) := by decide
    have ten : l.base = 10 := rfl
    have count : addMagnitude (.finite twenty) l.magnitude = .infinite false := by decide +kernel
    have text : l.text = "1.5``20*^400" := by decide
    rw [toDraft_eq wellFormed, if_neg pointed, if_pos ten, classifyDecimal_accuracy suffix number, count,
      finiteDigits_infinite, refuse, text]
    rfl

end Literal

end SymbolicKernel

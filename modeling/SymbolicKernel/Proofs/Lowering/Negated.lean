import SymbolicKernel.Proofs.Literal.Precise
import SymbolicKernel.Proofs.Literal.Suffix
import SymbolicKernel.Proofs.Number.Opposite

/-!
A literal and the same literal with the other sign. The sign is put on the digits of exact numbers, on the doubles of
machine reals, in front of the text of reals of high precision and on the numerators of quotients. Main statement:
`Literal.negation_negates_the_number`, in all these places it has the same effect and no other.
-/
namespace SymbolicKernel

open Interning

/-- Errors of one kind: they differ at most in the text that they name. -/
def LowerError.SameKind : LowerError → LowerError → Prop
  | .malformedNumber _, .malformedNumber _ => True
  | .number e, .number e' => e.SameKind e'
  | e, e' => e = e'

/-- A quotient changes its sign with its numerator. -/
theorem Rational.ofFraction_neg (p q : ℤ) :
    Except.Related NumberError.SameKind (fun x y => y = -x) (ofFraction p q) (ofFraction (-p) q) := by
  unfold ofFraction
  split
  · exact .error (.refl .zeroDenominator)
  · refine .ok ?_
    rw [neg_mul, Rat.neg_mkRat]

/-- What two reals of opposite values are read from: texts that are read as opposite decimals or not at all, or
quotients of opposite numerators. -/
inductive PreciseSource.Opposite : PreciseSource → PreciseSource → Prop
  | text {t t' : String} :
      Except.Related NumberError.SameKind WrittenDecimal.Opposite (WrittenDecimal.ofText t) (WrittenDecimal.ofText t') →
      Opposite (.text t) (.text t')
  | ratio (p q : ℤ) : Opposite (.ratio p q) (.ratio (-p) q)

namespace Draft

inductive Opposite : Draft → Draft → Prop
  | integer (n : ℤ) : Opposite (.integer n) (.integer (-n))
  | rational (p q : ℤ) : Opposite (.rational p q) (.rational (-p) q)
  | machine {x y : Double} {v : ℚ} : x.Rounds v → y.Rounds (-v) → Opposite (.machine x) (.machine y)
  | precise {source source' : PreciseSource} (digits : Double) :
      source.Opposite source' → Opposite (.precise source digits) (.precise source' digits)

variable {source source' : PreciseSource} {d d' : Draft}

theorem buildPrecise_opposite (opposite : source.Opposite source') (digits : ℕ) :
    Except.Related NumberError.SameKind PrecisionReal.Opposite (buildPrecise source digits)
      (buildPrecise source' digits) := by
  cases opposite with
  | text read =>
    exact read.map fun _ _ opposite => PrecisionReal.ofWritten_opposite opposite _
  | ratio p q =>
    apply (Rational.ofFraction_neg p q).map
    rintro x y rfl
    exact PrecisionReal.ofRat_opposite x digits

/-- Opposite drafts become opposite numbers, or both become none. -/
theorem Opposite.resolve (opposite : d.Opposite d') (resolver : Resolver) :
    Except.Related LowerError.SameKind
      (fun r r' => ∃ x y : RealNumber, x.Opposite y ∧ r = .number (.real x) ∧ r' = .number (.real y))
      (d.resolve resolver) (d'.resolve resolver) := by
  have built : ∀ {a b : Except NumberError RealNumber}, Except.Related NumberError.SameKind RealNumber.Opposite a b →
      Except.Related LowerError.SameKind
        (fun r r' => ∃ x y : RealNumber, x.Opposite y ∧ r = .number (.real x) ∧ r' = .number (.real y))
        (buildReal a) (buildReal b) := by
    intro a b related
    refine (related.map ?_).mapError fun _ _ alike => alike
    intro x y opposite
    exact ⟨x, y, opposite, rfl, rfl⟩
  cases opposite with
  | integer n => exact .ok ⟨_, _, .integer n, rfl, rfl⟩
  | rational p q =>
    refine built ((Rational.ofFraction_neg p q).map ?_)
    rintro x y rfl
    exact .rational x
  | machine first second => exact built ((MachineReal.ofDouble_opposite first second).map fun _ _ => .machine)
  | precise digits opposite => exact built ((buildPrecise_opposite opposite _).map fun _ _ => .precise)

end Draft

namespace Literal

variable {l : Literal}

theorem significand_negated (l : Literal) : l.negated.significand = -l.significand :=
  Numeral.withSign_not _ _

theorem ratio_negated (l : Literal) : l.negated.ratio = (-l.ratio.1, l.ratio.2) := by
  have last : l.negated.lastExponent = l.lastExponent := rfl
  have base : l.negated.base = l.base := rfl
  rw [ratio, ratio, significand_negated, last, base]
  split
  · rw [neg_mul]
  · rfl

theorem value_negated (pos : 0 < l.base) : l.negated.value = -l.value := by
  have last : l.negated.lastExponent = l.lastExponent := rfl
  have base : l.negated.base = l.base := rfl
  rw [value_eq_scaled (l := l.negated) pos, value_eq_scaled pos, significand_negated, last, base, Int.cast_neg, neg_mul]

/-- A literal is refused by its own text. -/
theorem refuse_negated {α : Type} {R : α → α → Prop} (l : Literal) :
    Except.Related LowerError.SameKind R l.refuse l.negated.refuse := .error trivial

theorem power_negated (l : Literal) (exponent : ℤ) :
    Except.Related LowerError.SameKind Eq (l.power exponent) (l.negated.power exponent) := by
  unfold Literal.power
  split
  · exact .ok rfl
  · exact l.refuse_negated

theorem finiteDigits_negated (l : Literal) (digits : Double) :
    Except.Related LowerError.SameKind Eq (l.finiteDigits digits) (l.negated.finiteDigits digits) := by
  unfold finiteDigits
  split
  · exact .ok rfl
  · exact l.refuse_negated

theorem suffixNumber_negated (l : Literal) (text : String) :
    Except.Related LowerError.SameKind Eq (l.suffixNumber text) (l.negated.suffixNumber text) := by
  have read : Except.Related LowerError.SameKind Eq (l.readDouble text) (l.negated.readDouble text) := by
    unfold readDouble
    split
    · exact .ok rfl
    · exact l.refuse_negated
  apply read.bind
  rintro x _ rfl
  exact l.finiteDigits_negated x

theorem exact_negated (wellFormed : l.isWellFormed = true) (point : l.hasPoint = false) :
    Except.Related LowerError.SameKind Draft.Opposite l.exact l.negated.exact := by
  have exponent : l.negated.exponent = l.exponent := rfl
  rw [exact_eq wellFormed point, exact_eq (l := l.negated) wellFormed point, significand_negated, exponent]
  apply (l.power_negated l.exponent).map
  rintro power _ rfl
  split
  · exact .rational _ _
  · rw [neg_mul]
    exact .integer _

/-- The sign in front of a text is not part of what the reader may refuse. -/
theorem signedText_opposite (wellFormed : l.isWellFormed = true) (ten : l.base = 10) :
    PreciseSource.Opposite (.text l.signedText) (.text l.negated.signedText) := by
  have exponent : l.negated.exponent = l.exponent := rfl
  have parts : l.negated.parts = l.parts := rfl
  apply PreciseSource.Opposite.text
  rw [WrittenDecimal.ofText, WrittenDecimal.ofText, read?_signedText wellFormed ten,
    read?_signedText (l := l.negated) wellFormed ten, significand_negated, exponent, parts]
  cases (some l.exponent).filter fun n => -2 ^ 63 ≤ n ∧ n < 2 ^ 63 with
  | none => exact .error trivial
  | some e => exact .ok ⟨rfl, rfl⟩

theorem decimalDouble_opposite (ten : l.base = 10) :
    Draft.Opposite (.machine l.decimalDouble) (.machine l.negated.decimalDouble) := by
  have rounds := decimalDouble_rounds (l := l.negated) ten
  rw [value_negated (by omega)] at rounds
  exact .machine (decimalDouble_rounds ten) rounds

/-- What is classified in base ten is the magnitude, which has no sign. -/
theorem classifyDecimal_negated (wellFormed : l.isWellFormed = true) (ten : l.base = 10) :
    Except.Related LowerError.SameKind Draft.Opposite (l.classifyDecimal l.magnitude)
      (l.negated.classifyDecimal l.magnitude) := by
  have machine := decimalDouble_opposite ten
  have source := signedText_opposite wellFormed ten
  have suffix : l.negated.suffixKind = l.suffixKind := rfl
  have parts : l.negated.parts = l.parts := rfl
  rw [classifyDecimal, classifyDecimal, suffix, parts]
  cases l.suffixKind with
  | absent =>
    by_cases few : l.parts.1.length + l.parts.2.length < machineThreshold
    · simp only [if_pos few]
      exact .ok machine
    · simp only [if_neg few]
      exact .ok (.precise _ source)
  | machine => exact .ok machine
  | accuracy text =>
    apply (l.suffixNumber_negated text).bind
    rintro accuracy _ rfl
    apply (l.finiteDigits_negated _).bind
    rintro digits _ rfl
    exact .ok (.precise digits source)
  | precision text =>
    apply (l.suffixNumber_negated text).bind
    rintro digits _ rfl
    exact .ok (.precise digits source)

theorem ratioDouble_negated (pos : 0 < l.base) :
    Draft.Opposite (.machine l.ratioDouble) (.machine l.negated.ratioDouble) ∧
      l.negated.ratioDouble.abs = l.ratioDouble.abs := by
  have rounds := ratio_rounds (l := l.negated) pos
  rw [value_negated pos] at rounds
  refine ⟨.machine (ratio_rounds pos) rounds, ?_⟩
  rw [ratioDouble, ratioDouble, ratio_negated, ← Rat.neg_mkRat, Double.abs_ofRat_neg]

/-- In any other base, a quotient is classified by the logarithm of its magnitude. -/
theorem classifyRatio_negated (pos : 0 < l.base) :
    Except.Related LowerError.SameKind Draft.Opposite (l.classifyRatio l.ratio.1 l.ratio.2 l.ratioDouble)
      (l.negated.classifyRatio l.negated.ratio.1 l.negated.ratio.2 l.negated.ratioDouble) := by
  obtain ⟨machine, magnitude⟩ := ratioDouble_negated pos
  have precise : ∀ digits, Except.Related LowerError.SameKind Draft.Opposite
      ((l.finiteDigits digits).map (Draft.precise (.ratio l.ratio.1 l.ratio.2)))
      ((l.negated.finiteDigits digits).map (Draft.precise (.ratio (-l.ratio.1) l.ratio.2))) := by
    intro digits
    apply (l.finiteDigits_negated digits).map
    rintro digits _ rfl
    exact .precise digits (.ratio _ _)
  have suffix : l.negated.suffixKind = l.suffixKind := rfl
  have parts : l.negated.parts = l.parts := rfl
  have base : l.negated.base = l.base := rfl
  rw [classifyRatio, classifyRatio, suffix, parts, base, magnitude, ratio_negated]
  cases l.suffixKind with
  | absent =>
    simp only
    split
    · exact precise _
    · exact .ok machine
  | machine => exact .ok machine
  | accuracy text =>
    apply (l.suffixNumber_negated text).bind
    rintro accuracy _ rfl
    exact precise _
  | precision text =>
    apply (l.suffixNumber_negated text).bind
    rintro digits _ rfl
    exact precise _

theorem toDraft_negated (l : Literal) :
    Except.Related LowerError.SameKind Draft.Opposite l.toDraft l.negated.toDraft := by
  cases wellFormed : l.isWellFormed with
  | false =>
    rw [toDraft_of_not_isWellFormed wellFormed, toDraft_of_not_isWellFormed (l := l.negated) wellFormed]
    exact l.refuse_negated
  | true =>
    have base := base_of_isWellFormed wellFormed
    have point : l.negated.hasPoint = l.hasPoint := rfl
    have suffix : l.negated.suffix = l.suffix := rfl
    have ten : l.negated.base = l.base := rfl
    have last : l.negated.lastExponent = l.lastExponent := rfl
    have magnitude : l.negated.magnitude = l.magnitude := rfl
    rw [toDraft_eq wellFormed, toDraft_eq (l := l.negated) wellFormed, point, suffix, ten, last, magnitude]
    split
    · rename_i exactly
      exact exact_negated wellFormed exactly.1
    · split
      · rename_i ten
        exact classifyDecimal_negated wellFormed ten
      · split
        · exact classifyRatio_negated (by omega)
        · exact l.refuse_negated

/-- To change the sign of a literal is to change the sign of the number that it is lowered to, and nothing else: both
literals are refused with errors of one kind, or both become numbers of one kind and of opposite values, reals of high
precision with the same number of bits. This is so in every base, with every suffix and with every exponent, whether
it can be read or not. -/
theorem negation_negates_the_number (l : Literal) (resolver : Resolver) (table : SymbolTable) :
    let lowered := fun l => perform ((Tree.number l).lower resolver) table
    (∃ e e', e.SameKind e' ∧ lowered l = (.error e, table) ∧ lowered l.negated = (.error e', table)) ∨
      ∃ x y : RealNumber, x.Opposite y ∧ lowered l = (.ok (.number (.real x)), table) ∧
        lowered l.negated = (.ok (.number (.real y)), table) := by
  intro lowered
  have related := l.toDraft_negated.bind fun _ _ (opposite : Draft.Opposite _ _) => opposite.resolve resolver
  simp only [lowered, Tree.lower_perform_resolve, Tree.toDraft]
  generalize l.toDraft >>= Draft.resolve resolver = first at related ⊢
  generalize l.negated.toDraft >>= Draft.resolve resolver = second at related ⊢
  cases related with
  | error alike => exact .inl ⟨_, _, alike, rfl, rfl⟩
  | ok here =>
    obtain ⟨x, y, opposite, rfl, rfl⟩ := here
    exact .inr ⟨x, y, opposite, rfl, rfl⟩

end Literal

end SymbolicKernel

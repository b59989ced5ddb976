import SymbolicKernel.Proofs.Literal.Value

/-!
What the suffix of a literal makes of it. The reader of doubles passes more than digits, so a suffix is told by the
double it is read as.
-/
namespace SymbolicKernel

theorem Double.ofText?_of_mark (rest : List Char) : Double.ofText? (String.ofList ('\x60' :: rest)) = none := by
  have word : ∀ text : String, text.toList.head? ≠ some '\x60' →
      String.ofList (('\x60' :: rest).map Char.toLower) ≠ text := by
    rintro _ other rfl
    exact other (by rw [String.toList_ofList]; rfl)
  have sign : Numeral.splitSign ('\x60' :: rest) = (false, '\x60' :: rest) := rfl
  simp only [ofText?, String.toList_ofList, sign, word "inf" (by decide), word "infinity" (by decide),
    word "nan" (by decide), or_self, if_false]
  rfl

theorem Double.ofText?_empty : Double.ofText? "" = none := by decide

namespace Literal

variable {l : Literal} {text : String} {n : MachineReal}

theorem suffixKind_absent (suffix : l.suffix = none) : l.suffixKind = .absent := by rw [suffixKind, suffix]

theorem suffixKind_machine (suffix : l.suffix = some "") : l.suffixKind = .machine := by
  rw [suffixKind, suffix]
  rfl

theorem suffixKind_accuracy (suffix : l.suffix = some ("`" ++ text)) : l.suffixKind = .accuracy text := by
  have marked : ("`" ++ text).toList = '\x60' :: text.toList := String.toList_append ..
  rw [suffixKind, suffix]
  simp only [marked, String.ofList_toList]

/-- A number has no back-quote in front, so it is what a suffix without one asks for. -/
theorem suffixKind_precision {x : Double} (suffix : l.suffix = some text) (number : Double.ofText? text = some x) :
    l.suffixKind = .precision text := by
  rw [suffixKind, suffix]
  simp only
  split
  · rename_i empty
    rw [String.toList_eq_nil_iff.mp empty, Double.ofText?_empty] at number
    cases number
  · rename_i rest marked
    rw [← String.ofList_toList (s := text), marked, Double.ofText?_of_mark] at number
    cases number
  · rw [String.ofList_toList]

/-- The four kinds of suffix, as they are written. -/
theorem suffixKind_cases (l : Literal) :
    l.suffix = none ∧ l.suffixKind = .absent ∨ l.suffix = some "" ∧ l.suffixKind = .machine ∨
      (∃ text, l.suffix = some ("`" ++ text) ∧ l.suffixKind = .accuracy text) ∨
      ∃ text, l.suffix = some text ∧ text ≠ "" ∧ (∀ rest, text ≠ "`" ++ rest) ∧ l.suffixKind = .precision text := by
  unfold suffixKind
  split
  · rename_i none
    exact .inl ⟨none, rfl⟩
  · rename_i suffix given
    split
    · rename_i empty
      exact .inr (.inl ⟨by rw [given, String.toList_eq_nil_iff.mp empty], rfl⟩)
    · rename_i accuracy marked
      refine .inr (.inr (.inl ⟨String.ofList accuracy, ?_, rfl⟩))
      rw [given, Option.some.injEq, ← String.toList_inj, marked]
      simp
    · rename_i empty unmarked
      refine .inr (.inr (.inr ⟨suffix, given, ?_, ?_, by rw [String.ofList_toList]⟩))
      · rintro rfl
        exact empty rfl
      · rintro rest rfl
        exact unmarked rest.toList (String.toList_append ..)

theorem suffixNumber_of_finite (number : Double.ofText? text = some (.finite n)) :
    l.suffixNumber text = .ok (.finite n) := by
  rw [suffixNumber, readDouble, number]
  rfl

theorem suffixNumber_of_not_finite (other : ∀ n, Double.ofText? text ≠ some (.finite n)) :
    l.suffixNumber text = l.refuse := by
  rw [suffixNumber, readDouble]
  cases read : Double.ofText? text with
  | none => rfl
  | some x =>
    cases x with
    | finite n => exact absurd read (other n)
    | infinite negative => rfl
    | nan => rfl

@[simp] theorem finiteDigits_finite : l.finiteDigits (.finite n) = .ok (.finite n) := rfl

@[simp] theorem finiteDigits_infinite (negative : Bool) : l.finiteDigits (.infinite negative) = l.refuse := rfl

section Classify

variable {magnitude x : Double} {p q : ℤ}

theorem classifyDecimal_accuracy (suffix : l.suffix = some ("`" ++ text))
    (number : Double.ofText? text = some (.finite n)) :
    l.classifyDecimal magnitude =
      (l.finiteDigits (addMagnitude (.finite n) magnitude)).map (.precise (.text l.signedText)) := by
  rw [classifyDecimal, suffixKind_accuracy suffix]
  simp only [suffixNumber_of_finite number]
  have mapped : ∀ count : Except LowerError Double,
      (do return Draft.precise (.text l.signedText) (← count)) = count.map (.precise (.text l.signedText)) := by
    intro count
    cases count <;> rfl
  exact mapped _

theorem classifyRatio_accuracy (suffix : l.suffix = some ("`" ++ text))
    (number : Double.ofText? text = some (.finite n)) :
    l.classifyRatio p q x =
      (l.finiteDigits (addMagnitude ((Double.finite n).mul (Double.ofInt l.base).log10) x.abs)).map
        (.precise (.ratio p q)) := by
  rw [classifyRatio, suffixKind_accuracy suffix]
  simp only [suffixNumber_of_finite number]
  rfl

theorem classifyDecimal_precision (suffix : l.suffix = some text) (number : Double.ofText? text = some (.finite n)) :
    l.classifyDecimal magnitude = .ok (.precise (.text l.signedText) (.finite n)) := by
  rw [classifyDecimal, suffixKind_precision suffix number]
  simp only [suffixNumber_of_finite number]
  rfl

theorem classifyRatio_precision (suffix : l.suffix = some text) (number : Double.ofText? text = some (.finite n)) :
    l.classifyRatio p q x =
      (l.finiteDigits ((Double.finite n).mul (Double.ofInt l.base).log10)).map (.precise (.ratio p q)) := by
  rw [classifyRatio, suffixKind_precision suffix number]
  simp only [suffixNumber_of_finite number]
  rfl

theorem classifyRatio_absent (suffix : l.suffix = none) :
    l.classifyRatio p q x =
      let digits := addMagnitude ((Double.ofInt l.parts.2.length).mul (Double.ofInt l.base).log10) x.abs
      if digits.atLeast machineThreshold then (l.finiteDigits digits).map (.precise (.ratio p q)) else .ok (.machine x) := by
  rw [classifyRatio, suffixKind_absent suffix]
  rfl

end Classify

theorem toDraft_of_not_isWellFormed (malformed : l.isWellFormed = false) : l.toDraft = l.refuse := by
  rw [toDraft, malformed]
  rfl

/-- A well-formed literal is exact, or it is classified by its suffix once its digits have been read. -/
theorem toDraft_eq (wellFormed : l.isWellFormed = true) :
    l.toDraft =
      if l.hasPoint = false ∧ l.suffix = none then l.exact
      else if l.base = 10 then l.classifyDecimal l.magnitude
      else if l.lastExponent.natAbs < 2 ^ 32 then l.classifyRatio l.ratio.1 l.ratio.2 l.ratioDouble else l.refuse := by
  have exactly : (!l.hasPoint && l.suffix.isNone) = true ↔ l.hasPoint = false ∧ l.suffix = none := by simp
  rw [toDraft, wellFormed, radixReal_eq wellFormed]
  simp only [Bool.not_true, Bool.false_eq_true, if_false, exactly]
  by_cases ten : l.base = 10
  · rw [if_pos ten, if_pos ten, decimalReal_eq wellFormed ten]
  · rw [if_neg ten, if_neg ten]

end Literal

end SymbolicKernel

import SymbolicKernel.Proofs.Lowering.Numbers
import SymbolicKernel.Proofs.Number.Coerce

/-!
What holds of every complex number, and why it does: all of them are joined of two parts in one place. Main statement:
`complex_proper_and_coerced_by_parts`, by which it also makes no difference whether parts are joined before or after
they become machine reals.
-/
namespace SymbolicKernel

open Interning

namespace MachineReal

theorem ofDouble_error {x : Double} {e : NumberError} (failed : ofDouble x = .error e) : e = .overflow := by
  cases x with
  | finite y => cases failed
  | infinite negative =>
    cases failed
    rfl
  | nan =>
    cases failed
    rfl

end MachineReal

namespace RealNumber

theorem isMachine_iff {x : RealNumber} : x.isMachine = true ↔ ∃ m, x = .machine m := by
  cases x <;> simp [isMachine]

end RealNumber

namespace Number

variable {n m : Number} {re im : RealNumber} {target : Option ℕ}

/-- The numbers that can be made. Real numbers are at hand, whatever they were made of, and further numbers come of
joining two as parts, of coercing one, of the same done with expressions, and of lowering a syntax tree. -/
inductive Made : Number → Prop
  | real (x : RealNumber) : Made (.real x)
  | toReal {source : RealSource} {bits : Option ℕ} {x : RealNumber} : source.toReal bits = .ok x → Made (.real x)
  | ofParts {re im n : Number} : Made re → Made im → Number.ofParts re im = .ok n → Made n
  | ofExprs {re im n : Number} :
      Made re → Made im → Expr.complex (.number re) (.number im) = .ok (.number n) → Made n
  | coerce {n m : Number} {target : Option ℕ} : Made n → n.coerce target = .ok m → Made m
  | coerceExpr {n m : Number} {target : Option ℕ} :
      Made n → (Expr.number n).coerce target = .ok (.number m) → Made m
  | lower {resolver : Resolver} {t : Tree} {table after : SymbolTable} {e : Expr} {n : Number} :
      perform (t.lower resolver) table = (.ok e, after) → n ∈ e.numbers → Made n

/-- The parts of a complex number are real, the imaginary one is not the exact zero, and no machine real stands beside
a part of another kind. -/
structure IsProper (n : Number) : Prop where
  real_parts : ∀ x ∈ n.parts, (real x).kind ≠ .complex
  imaginary_ne_zero : ∀ re im, n = complex re im → im ≠ .integer 0
  machine_iff : ∀ re im, n = complex re im → (re.isMachine = true ↔ im.isMachine = true)

theorem kind_real_ne_complex (x : RealNumber) : (real x).kind ≠ .complex := by
  cases x <;> exact nofun

theorem isProper_real (x : RealNumber) : (real x).IsProper :=
  ⟨fun y _ => kind_real_ne_complex y, nofun, nofun⟩

theorem isProper_complex (nonzero : im ≠ .integer 0) (both : re.isMachine = true ↔ im.isMachine = true) :
    (complex re im).IsProper := by
  refine ⟨fun y _ => kind_real_ne_complex y, ?_, ?_⟩
  · rintro _ _ ⟨⟩
    exact nonzero
  · rintro _ _ ⟨⟩
    exact both

theorem isProper_ofReals (made : ofReals re im = .ok n) : n.IsProper := by
  unfold ofReals at made
  split_ifs at made with zero left right
  · cases made
    exact isProper_real re
  · obtain ⟨y, _, rfl⟩ := Except.map_ok_iff.mp made
    exact isProper_complex nofun (iff_of_true left rfl)
  · obtain ⟨x, _, rfl⟩ := Except.map_ok_iff.mp made
    exact isProper_complex zero (iff_of_true rfl right)
  · cases made
    exact isProper_complex zero (iff_of_false left right)

theorem isProper_ofParts {a b : Number} (made : ofParts a b = .ok n) : n.IsProper := by
  obtain ⟨re, _, made⟩ := Except.bind_ok_iff.mp made
  obtain ⟨im, _, made⟩ := Except.bind_ok_iff.mp made
  exact isProper_ofReals made

theorem isProper_coerce (made : n.coerce target = .ok m) : m.IsProper := by
  cases n with
  | real x =>
    obtain ⟨y, _, rfl⟩ := Except.map_ok_iff.mp made
    exact isProper_real y
  | complex re im =>
    obtain ⟨re', _, made⟩ := Except.bind_ok_iff.mp made
    obtain ⟨im', _, made⟩ := Except.bind_ok_iff.mp made
    exact isProper_ofReals made

theorem isProper_ofDraft (lowered : n.OfDraft) : n.IsProper := by
  cases lowered <;> exact isProper_real _

theorem complex_number_ok_iff {a b : Number} :
    Expr.complex (.number a) (.number b) = .ok (.number n) ↔ ofParts a b = .ok n := by
  have joined : Expr.complex (.number a) (.number b) = ((ofParts a b).map .number).mapError .number := rfl
  rw [joined, Except.mapError_ok_iff, Except.map_ok_iff]
  simp

theorem coerce_number_ok_iff :
    (Expr.number n).coerce target = .ok (.number m) ↔ n.coerce target = .ok m := by
  have coerced : (Expr.number n).coerce target = ((n.coerce target).map .number).mapError .number := rfl
  rw [coerced, Except.mapError_ok_iff, Except.map_ok_iff]
  simp

theorem Made.isProper (made : n.Made) : n.IsProper := by
  cases made with
  | real x => exact isProper_real x
  | toReal _ => exact isProper_real _
  | ofParts _ _ joined => exact isProper_ofParts joined
  | ofExprs _ _ joined => exact isProper_ofParts (complex_number_ok_iff.mp joined)
  | coerce _ coerced => exact isProper_coerce coerced
  | coerceExpr _ coerced => exact isProper_coerce (coerce_number_ok_iff.mp coerced)
  | lower lowered member => exact isProper_ofDraft (Tree.lower_numbers lowered n member)

theorem ofParts_complex {a b : Number} (nested : a.kind = .complex ∨ b.kind = .complex) :
    ofParts a b = .error (.invalidComponent .complex) := by
  cases a with
  | complex _ _ => rfl
  | real x =>
    cases b with
    | complex _ _ => rfl
    | real y => exact absurd nested (not_or.mpr ⟨kind_real_ne_complex x, kind_real_ne_complex y⟩)

/-- To make a complex number one of machine reals is to make its parts such, and fails with the first that is out of
range. -/
theorem coerce_none_complex (re im : RealNumber) :
    (complex re im).coerce none = do
      let x ← re.toMachine
      let y ← im.toMachine
      return complex (.machine x) (.machine y) := by
  have left : re.coerce none = re.toMachine.map .machine := rfl
  have right : im.coerce none = im.toMachine.map .machine := rfl
  rw [coerce, left, right]
  cases re.toMachine with
  | error e => rfl
  | ok x =>
    cases im.toMachine with
    | error e => rfl
    | ok y => rfl

theorem coerce_none_complex_error {e : NumberError} (failed : (complex re im).coerce none = .error e) :
    e = .overflow := by
  rw [coerce_none_complex] at failed
  cases left : re.toMachine with
  | error e =>
    rw [left] at failed
    cases failed
    exact MachineReal.ofDouble_error left
  | ok x =>
    rw [left] at failed
    cases right : im.toMachine with
    | error e =>
      rw [right] at failed
      cases failed
      exact MachineReal.ofDouble_error right
    | ok y =>
      rw [right] at failed
      cases failed

/-- A part that joining makes a machine real is not converted again afterwards. -/
theorem coerce_ofReals (nonzero : im ≠ .integer 0) :
    ofReals re im >>= coerce none = (complex re im).coerce none := by
  rw [ofReals, if_neg nonzero]
  -- only a part beside a machine real has become one by joining, and converting it again returns it
  by_cases left : re.isMachine = true
  · obtain ⟨x, rfl⟩ := RealNumber.isMachine_iff.mp left
    rw [if_pos left, coerce_none_complex]
    cases im.toMachine <;> rfl
  · rw [if_neg left]
    by_cases right : im.isMachine = true
    · obtain ⟨y, rfl⟩ := RealNumber.isMachine_iff.mp right
      rw [if_pos right, coerce_none_complex]
      cases re.toMachine <;> rfl
    · rw [if_neg right]
      rfl

theorem coerce_real_parts (target : Option ℕ) (re im : RealNumber) :
    (do
      let a ← (real re).coerce target
      let b ← (real im).coerce target
      ofParts a b) = (complex re im).coerce target := by
  simp only [coerce]
  cases re.coerce target with
  | error e => rfl
  | ok x =>
    cases im.coerce target with
    | error e => rfl
    | ok y => rfl

/-- However a number was made, it is proper if it is complex, since to join a part that is itself complex is refused.
To join two real numbers and then make machine reals of the parts comes to the same as the other way round, whether it
succeeds or a part is out of range. -/
theorem complex_proper_and_coerced_by_parts :
    (∀ n : Number, n.Made → n.IsProper) ∧
    (∀ a b : Number, a.kind = .complex ∨ b.kind = .complex → ofParts a b = .error (.invalidComponent .complex)) ∧
    ∀ a b : Number, a.kind ≠ .complex → b.kind ≠ .complex → b.isExactZero = false →
      (ofParts a b >>= coerce none) = (do
        let x ← a.coerce none
        let y ← b.coerce none
        ofParts x y) ∧
      ∀ e, ofParts a b >>= coerce none = .error e → e = .overflow := by
  refine ⟨fun n made => made.isProper, fun a b nested => ofParts_complex nested, ?_⟩
  intro a b realLeft realRight nonzero
  cases a with
  | complex _ _ => exact absurd rfl realLeft
  | real re =>
    cases b with
    | complex _ _ => exact absurd rfl realRight
    | real im =>
      have inexact : im ≠ .integer 0 := by
        rintro rfl
        cases nonzero
      have joined : ofParts (real re) (real im) >>= coerce none = (complex re im).coerce none := coerce_ofReals inexact
      rw [joined]
      exact ⟨(coerce_real_parts none re im).symm, fun e failed => coerce_none_complex_error failed⟩

/-- One half beside the machine real two becomes a machine real, and a part out of range is refused in either order. -/
theorem complex_proper_and_coerced_by_parts_of_half :
    let two : MachineReal := ⟨false, 0x4000000000000000, by decide⟩
    let half : MachineReal := ⟨false, 0x3fe0000000000000, by decide⟩
    let joined := complex (.machine half) (.machine two)
    let large := integer (10 ^ 400)
    joined.Made ∧ joined.IsProper ∧ ofParts joined large = .error (.invalidComponent .complex) ∧
      ofParts large (integer 1) >>= coerce none = .error .overflow ∧
      (ofParts large (integer 1) >>= coerce none) = (do
        let x ← large.coerce none
        let y ← (integer 1).coerce none
        ofParts x y) := by
  intro two half joined large
  have run : ofParts (real (.rational (1 / 2))) (real (.machine two)) = .ok joined := by decide +kernel
  have made : joined.Made := .ofParts (.real _) (.real _) run
  have overflow : ofParts large (integer 1) >>= coerce none = .error .overflow := by decide +kernel
  obtain ⟨proper, refuse, apart⟩ := complex_proper_and_coerced_by_parts
  exact ⟨made, proper joined made, refuse joined large (.inl rfl), overflow,
    (apart large (integer 1) (by decide) (by decide) rfl).1⟩

end Number

end SymbolicKernel

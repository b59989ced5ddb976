import SymbolicKernel.Proofs.Expr.Same
import SymbolicKernel.Proofs.Number.Complex
import SymbolicKernel.Proofs.Number.Opposite
import SymbolicKernel.Proofs.Number.Reconstruct

/-!
Numbers that are the same become the same machine numbers. What a number is converted by depends on its kind, but each
conversion rounds its exact value, and for inexact numbers this value is all that identity looks at. Main statement:
`Number.coerce_none_of_same`.
-/
namespace SymbolicKernel

/-- Both calculations go out of the range of machine reals. -/
def NumberError.BothOverflow (e e' : NumberError) : Prop := e = .overflow ∧ e' = .overflow

theorem MachineReal.ofDouble_of_equal {x y : Double} (equal : x.Equal y) :
    Except.Related NumberError.BothOverflow (fun a b => a.sameValue b = true) (ofDouble x) (ofDouble y) := by
  cases x with
  | finite a =>
    cases y with
    | finite b => exact .ok equal
    | infinite _ | nan => exact equal.elim
  | infinite s =>
    cases y with
    | infinite t => exact .error ⟨rfl, rfl⟩
    | finite _ | nan => exact equal.elim
  | nan => exact equal.elim

namespace RealNumber

theorem toDouble_rounds (x : RealNumber) : x.toDouble.Rounds x.toRat := by
  cases x with
  | integer n => exact .ofInt n
  | rational v => exact .ofRat v
  | machine m => exact m.rounds_toRat
  | precise r => exact r.toDouble_rounds

variable {a b : RealNumber}

theorem toRat_eq_of_same (same : a.same b = true) : a.toRat = b.toRat := by
  rw [same_iff] at same
  cases a <;> cases b <;> simp_all [identity, toRat]

theorem toMachine_of_same (same : a.same b = true) :
    Except.Related NumberError.BothOverflow (fun x y => x.sameValue y = true) a.toMachine b.toMachine := by
  have left := a.toDouble_rounds
  rw [toRat_eq_of_same same] at left
  exact MachineReal.ofDouble_of_equal (left.equal b.toDouble_rounds)

end RealNumber

/-- Two numbers that are the same, be they of different precisions or kinds of inexact parts, either both overflow as
machine numbers or become the same ones. -/
theorem Number.coerce_none_of_same {a b : Number} (same : a.same b = true) :
    Except.Related NumberError.BothOverflow (fun r s => r.same s = true) (a.coerce none) (b.coerce none) := by
  cases a with
  | real x =>
    cases b with
    | real y => exact ((RealNumber.toMachine_of_same same).map fun _ _ here => here).map fun _ _ here => here
    | complex _ _ => cases same
  | complex re im =>
    cases b with
    | real _ => cases same
    | complex re' im' =>
      rw [Number.same, Bool.and_eq_true] at same
      rw [coerce_none_complex, coerce_none_complex]
      refine (RealNumber.toMachine_of_same same.1).bind fun x x' left => ?_
      refine (RealNumber.toMachine_of_same same.2).bind fun y y' right => ?_
      refine .ok ?_
      rw [Number.same, Bool.and_eq_true]
      exact ⟨left, right⟩

/-- Parts of different precisions beside machine reals of the same values, and two numbers that are out of range. -/
theorem Number.coerce_none_of_same_of_half :
    let half : MachineReal := ⟨false, 0x3fe0000000000000, by decide⟩
    let quarter : MachineReal := ⟨true, 0x3fd0000000000000, by decide⟩
    let precise := complex (.precise (.ofDecimal (.ofParts 5 (-1)) 60)) (.precise (.ofDecimal (.ofParts (-25) (-2)) 200))
    let machine := complex (.machine half) (.machine quarter)
    let large := real (.precise (.ofDecimal (.ofParts 1 400) 60))
    let larger := real (.precise (.ofDecimal (.ofParts 10 399) 200))
    precise.same machine = true ∧ (∃ r s, precise.coerce none = .ok r ∧ machine.coerce none = .ok s ∧ r.same s = true) ∧
      large.same larger = true ∧ large.coerce none = .error .overflow ∧ larger.coerce none = .error .overflow := by
  intro half quarter precise machine large larger
  have same : precise.same machine = true := by decide +kernel
  have made : machine.coerce none = .ok machine := rfl
  have equal : large.same larger = true := by decide +kernel
  have overflow : large.coerce none = .error .overflow := by decide +kernel
  have related := coerce_none_of_same same
  have failed := coerce_none_of_same equal
  rw [made] at related
  rw [overflow] at failed
  refine ⟨same, ?_, equal, overflow, ?_⟩
  · generalize precise.coerce none = result at related
    cases related with
    | ok here => exact ⟨_, _, rfl, made, here⟩
  · generalize larger.coerce none = result at failed
    cases failed with
    | error alike => rw [alike.2]

end SymbolicKernel

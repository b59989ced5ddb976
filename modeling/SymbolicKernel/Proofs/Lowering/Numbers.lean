import SymbolicKernel.Proofs.Lowering.Registration

/-!
The numbers of a lowered expression are those that were built for the literals of its tree.
-/
namespace SymbolicKernel

open Interning

mutual

/-- The numbers that stand in an expression, from left to right. -/
def Expr.numbers : Expr → List Number
  | .symbol _ => []
  | .number n => [n]
  | .string _ => []
  | .compound head leaves => head.numbers ++ Expr.rowNumbers leaves

def Expr.rowNumbers : List Expr → List Number
  | [] => []
  | e :: es => e.numbers ++ Expr.rowNumbers es

end

mutual

/-- The numbers that stand in a resolved expression, from left to right. -/
def Resolved.numbers : Resolved → List Number
  | .symbol _ => []
  | .number n => [n]
  | .string _ => []
  | .expression head children => head.numbers ++ Resolved.rowNumbers children

def Resolved.rowNumbers : List Resolved → List Number
  | [] => []
  | r :: rs => r.numbers ++ Resolved.rowNumbers rs

end

namespace Resolved

mutual

/-- To assemble an expression neither drops nor changes a number. -/
theorem toExpr_numbers : (r : Resolved) → {table after : SymbolTable} → {e : Expr} →
    perform r.toExpr table = (.ok e, after) → e.numbers = r.numbers
  | symbol q, table, after, e, made => by
    rw [toExpr, map_eq_pure_bind] at made
    obtain ⟨s, middle, _, made⟩ := perform_bind_ok_iff.mp made
    cases made
    rfl
  | number n, table, after, e, made => by
    cases made
    rfl
  | string text, table, after, e, made => by
    cases made
    rfl
  | expression head children, table, after, e, made => by
    rw [toExpr] at made
    obtain ⟨h, middle, headMade, made⟩ := perform_bind_ok_iff.mp made
    obtain ⟨cs, last, childrenMade, made⟩ := perform_bind_ok_iff.mp made
    cases made
    rw [Expr.numbers, numbers, toExpr_numbers head headMade, toExprs_numbers children childrenMade]

theorem toExprs_numbers : (rs : List Resolved) → {table after : SymbolTable} → {es : List Expr} →
    perform (toExprs rs) table = (.ok es, after) → Expr.rowNumbers es = rowNumbers rs
  | [], table, after, es, made => by
    cases made
    rfl
  | r :: rs, table, after, es, made => by
    rw [toExprs] at made
    obtain ⟨e, middle, firstMade, made⟩ := perform_bind_ok_iff.mp made
    obtain ⟨rest, last, restMade, made⟩ := perform_bind_ok_iff.mp made
    cases made
    rw [Expr.rowNumbers, rowNumbers, toExpr_numbers r firstMade, toExprs_numbers rs restMade]

end

end Resolved

/-- The numbers that can be built of drafts. Those of high precision come from a text or from a quotient. -/
inductive Number.OfDraft : Number → Prop
  | integer (n : Int) : OfDraft (.integer n)
  | rational (x : Rat) : OfDraft (.real (.rational x))
  | machine (x : MachineReal) : OfDraft (.real (.machine x))
  | precise {source : PreciseSource} {digits : Nat} {r : PrecisionReal} :
      Draft.buildPrecise source digits = .ok r → OfDraft (.real (.precise r))

namespace Draft

variable {resolver : Resolver}

mutual

theorem resolve_numbers : (d : Draft) → {r : Resolved} → d.resolve resolver = .ok r → ∀ n ∈ r.numbers, n.OfDraft
  | symbol text, r, made => by
    rw [resolve] at made
    obtain ⟨p, _, rfl⟩ := parseName_ok_iff.mp made
    exact fun n member => by cases member
  | lookup name, r, made => by
    rw [resolve] at made
    split at made
    · obtain ⟨p, _, rfl⟩ := parseName_ok_iff.mp made
      exact fun n member => by cases member
    · cases made
  | string text, r, made => by
    cases made
    exact fun n member => by cases member
  | integer n, r, made => by
    cases made
    exact List.forall_mem_singleton.mpr (.integer n)
  | rational p q, r, made => by
    obtain ⟨y, built, rfl⟩ := buildReal_ok_iff.mp made
    obtain ⟨x, _, rfl⟩ := Except.map_ok_iff.mp built
    exact List.forall_mem_singleton.mpr (.rational x)
  | machine x, r, made => by
    obtain ⟨y, built, rfl⟩ := buildReal_ok_iff.mp made
    obtain ⟨x, _, rfl⟩ := Except.map_ok_iff.mp built
    exact List.forall_mem_singleton.mpr (.machine x)
  | precise source digits, r, made => by
    obtain ⟨y, built, rfl⟩ := buildReal_ok_iff.mp made
    obtain ⟨x, fromSource, rfl⟩ := Except.map_ok_iff.mp built
    exact List.forall_mem_singleton.mpr (.precise fromSource)
  | expression head children, r, made => by
    rw [resolve] at made
    obtain ⟨h, headMade, made⟩ := Except.bind_ok_iff.mp made
    obtain ⟨cs, childrenMade, made⟩ := Except.bind_ok_iff.mp made
    cases made
    intro n member
    rcases List.mem_append.mp member with inHead | inChild
    · exact resolve_numbers head headMade n inHead
    · exact resolveAll_numbers children childrenMade n inChild

theorem resolveAll_numbers : (ds : List Draft) → {rs : List Resolved} → resolveAll resolver ds = .ok rs →
    ∀ n ∈ Resolved.rowNumbers rs, n.OfDraft
  | [], rs, made => by
    cases made
    exact fun n member => by cases member
  | d :: ds, rs, made => by
    rw [resolveAll] at made
    obtain ⟨r, firstMade, made⟩ := Except.bind_ok_iff.mp made
    obtain ⟨rest, restMade, made⟩ := Except.bind_ok_iff.mp made
    cases made
    intro n member
    rcases List.mem_append.mp member with inFirst | inRest
    · exact resolve_numbers d firstMade n inFirst
    · exact resolveAll_numbers ds restMade n inRest

end

end Draft

theorem Tree.lower_numbers {resolver : Resolver} {t : Tree} {table after : SymbolTable} {e : Expr}
    (made : perform (t.lower resolver) table = (.ok e, after)) : ∀ n ∈ e.numbers, n.OfDraft := by
  rw [lower_perform] at made
  cases draft : t.toDraft with
  | error _ => simp [draft] at made
  | ok d =>
    simp only [draft] at made
    rw [Draft.toExpr_perform] at made
    cases resolved : d.resolve resolver with
    | error _ => simp [resolved] at made
    | ok r =>
      simp only [resolved] at made
      rw [r.toExpr_numbers made]
      exact d.resolve_numbers resolved

end SymbolicKernel

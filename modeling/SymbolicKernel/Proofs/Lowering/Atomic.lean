import SymbolicKernel.Proofs.Session

namespace SymbolicKernel

open Interning

/-- To build a draft or to lower a tree is all or nothing for the table of symbols, in every state that the table can
reach and wherever in the tree a failure lies. It fails only where resolving fails: once all names are resolved and
all numbers built, to register the names cannot fail any more. -/
theorem lowering_registers_all_or_nothing {history : List Event} {table : SymbolTable}
    (session : Session history table) (resolver : Resolver) :
    (∀ d : Draft, RegistersAllOrNothing (d.toExpr resolver) table (fun q => d.Names resolver q) Expr.Mentions ∧
      ∀ e, (perform (d.toExpr resolver) table).1 = .error e ↔ d.resolve resolver = .error e) ∧
    ∀ t : Tree, RegistersAllOrNothing (t.lower resolver) table (fun q => t.Names resolver q) Expr.Mentions ∧
      ∀ e, (perform (t.lower resolver) table).1 = .error e ↔ (t.toDraft >>= Draft.resolve resolver) = .error e := by
  have sound := session.invariant.1
  constructor
  · intro d
    exact ⟨d.toExpr_registers sound resolver, d.toExpr_error_iff sound resolver⟩
  · intro t
    exact ⟨t.lower_registers sound resolver, t.lower_error_iff sound resolver⟩

/-- The head and the first child are resolved, the second child is not: neither of the two names is registered. -/
theorem lowering_registers_nothing_of_missing_child :
    let resolver : Resolver := fun name => if name = "missing" then none else some ("Global`" ++ name)
    let t := Tree.node (.symbol (some "Local") "head") [.symbol none "fine", .symbol none "missing"]
    Session [] .fresh ∧ perform (t.lower resolver) .fresh = (.error (.unresolved "missing"), .fresh) ∧
      RegistersAllOrNothing (t.lower resolver) .fresh (fun q => t.Names resolver q) Expr.Mentions := by
  intro resolver t
  exact ⟨.start, rfl, ((lowering_registers_all_or_nothing .start resolver).2 t).1⟩

end SymbolicKernel

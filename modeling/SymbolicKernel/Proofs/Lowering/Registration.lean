import SymbolicKernel.Proofs.Lowering.Names
import SymbolicKernel.Proofs.Symbol.Table

namespace SymbolicKernel

namespace Interning
variable {ε ε' α β : Type}

/-- What a calculation that may fail answers when it starts from a table, and the table it leaves. A failure
does not take back what was registered before it. -/
def perform (x : ExceptT ε Interning α) (table : SymbolTable) : Except ε α × SymbolTable :=
  x.run.run table

theorem perform_pure (a : α) (table : SymbolTable) :
    perform (pure a : ExceptT ε Interning α) table = (.ok a, table) := rfl

theorem perform_bind {x : ExceptT ε Interning α} {f : α → ExceptT ε Interning β} {table middle : SymbolTable} {a : α}
    (first : perform x table = (.ok a, middle)) : perform (x >>= f) table = perform (f a) middle := by
  unfold perform at first ⊢
  rw [ExceptT.run_bind, StateT.run_bind, first]
  rfl

theorem perform_bind_error {x : ExceptT ε Interning α} {f : α → ExceptT ε Interning β} {table after : SymbolTable}
    {e : ε} (first : perform x table = (.error e, after)) : perform (x >>= f) table = (.error e, after) := by
  unfold perform at first ⊢
  rw [ExceptT.run_bind, StateT.run_bind, first]
  rfl

/-- A sequence that succeeds has succeeded in both its steps. -/
theorem perform_bind_ok_iff {x : ExceptT ε Interning α} {f : α → ExceptT ε Interning β} {table after : SymbolTable}
    {b : β} : perform (x >>= f) table = (.ok b, after) ↔
      ∃ a middle, perform x table = (.ok a, middle) ∧ perform (f a) middle = (.ok b, after) := by
  rcases run : perform x table with ⟨outcome, middle⟩
  cases outcome with
  | error e => simp [perform_bind_error run]
  | ok a => simp [perform_bind run]

theorem perform_map {x : ExceptT ε Interning α} {f : α → β} {table after : SymbolTable} {a : α}
    (first : perform x table = (.ok a, after)) : perform (f <$> x) table = (.ok (f a), after) := by
  rw [map_eq_pure_bind, perform_bind first, perform_pure]

theorem perform_map_error {x : ExceptT ε Interning α} {f : α → β} {table after : SymbolTable} {e : ε}
    (first : perform x table = (.error e, after)) : perform (f <$> x) table = (.error e, after) := by
  rw [map_eq_pure_bind, perform_bind_error first]

/-- A calculation that registers nothing answers before the table is touched. -/
theorem perform_bind_lift (x : Except ε α) (f : α → ExceptT ε Interning β) (table : SymbolTable) :
    perform (liftM x >>= f) table =
      match x with
      | .ok a => perform (f a) table
      | .error e => (.error e, table) := by
  cases x <;> rfl

theorem perform_adapt (x : ExceptT ε Interning α) (f : ε → ε') (table : SymbolTable) :
    perform (x.adapt f) table = ((perform x table).1.mapError f, (perform x table).2) := rfl

end Interning

open Interning

namespace Symbol

theorem ofText_perform (raw : String) (table : SymbolTable) :
    perform (ofText raw) table =
      match QualifiedName.parse raw with
      | .ok q => (.ok (table.intern q).1, (table.intern q).2)
      | .error e => (.error e, table) := by
  rw [ofText, perform_bind_lift]
  cases QualifiedName.parse raw <;> rfl

theorem ofParts_perform (context name : String) (table : SymbolTable) :
    perform (ofParts context name) table =
      match QualifiedName.ofParts context name with
      | .ok q => (.ok (table.intern q).1, (table.intern q).2)
      | .error e => (.error e, table) := by
  rw [ofParts, perform_bind_lift]
  cases QualifiedName.ofParts context name <;> rfl

/-- A name that was checked once passes the check again, so registering its parts cannot fail. -/
theorem ofParts_perform_self (q : QualifiedName) (table : SymbolTable) :
    perform (ofParts q.context q.name) table = (.ok (table.intern q).1, (table.intern q).2) := by
  rw [ofParts_perform, QualifiedName.ofParts_self]

end Symbol

namespace Resolved

mutual

/-- To assemble an expression cannot fail: it registers exactly the names that stand in it, and takes every symbol
from the table. -/
theorem toExpr_perform {table : SymbolTable} (sound : table.Sound) : (r : Resolved) →
    ∃ e after, perform r.toExpr table = (.ok e, after) ∧ after.Sound ∧ table.Extends after (fun q => r.Names q) ∧
      ∀ s, e.Mentions s → after.Holds s
  | symbol q => by
    obtain ⟨keeps, extend, found⟩ := SymbolTable.intern_spec sound q
    refine ⟨.symbol (table.intern q).1, (table.intern q).2, ?_, keeps, extend.congr (by simp), ?_⟩
    · rw [toExpr]
      apply perform_map
      rw [perform_adapt, Symbol.ofParts_perform_self]
      rfl
    · intro s inside
      rw [Expr.mentions_symbol.mp inside]
      exact keeps.holds_of_find? found
  | number n => ⟨.number n, table, rfl, sound, (SymbolTable.Extends.refl table).congr (by simp), by simp⟩
  | string text => ⟨.string text, table, rfl, sound, (SymbolTable.Extends.refl table).congr (by simp), by simp⟩
  | expression head children => by
    obtain ⟨h, middle, headRun, middleSound, headExtend, headOwn⟩ := toExpr_perform sound head
    obtain ⟨cs, after, childrenRun, afterSound, childrenExtend, childrenOwn⟩ := toExprs_perform middleSound children
    refine ⟨.compound h cs, after, ?_, afterSound, (headExtend.trans childrenExtend).congr (by simp), ?_⟩
    · rw [toExpr, perform_bind headRun, perform_bind childrenRun, perform_pure]
    · intro s inside
      rcases Expr.mentions_compound.mp inside with inHead | ⟨e, member, inLeaf⟩
      · exact childrenExtend.holds (headOwn s inHead)
      · exact childrenOwn e member s inLeaf

theorem toExprs_perform {table : SymbolTable} (sound : table.Sound) : (rs : List Resolved) →
    ∃ es after, perform (toExprs rs) table = (.ok es, after) ∧ after.Sound ∧
      table.Extends after (fun q => ∃ r ∈ rs, r.Names q) ∧ ∀ e ∈ es, ∀ s, e.Mentions s → after.Holds s
  | [] => ⟨[], table, rfl, sound, (SymbolTable.Extends.refl table).congr (by simp), by simp⟩
  | r :: rs => by
    obtain ⟨e, middle, firstRun, middleSound, firstExtend, firstOwn⟩ := toExpr_perform sound r
    obtain ⟨es, after, restRun, afterSound, restExtend, restOwn⟩ := toExprs_perform middleSound rs
    refine ⟨e :: es, after, ?_, afterSound, (firstExtend.trans restExtend).congr (by simp), ?_⟩
    · rw [toExprs, perform_bind firstRun, perform_bind restRun, perform_pure]
    · intro x member s inside
      rcases List.mem_cons.mp member with rfl | later
      · exact restExtend.holds (firstOwn s inside)
      · exact restOwn x later s inside

end

end Resolved

/-- A calculation that either fails and leaves the table as it was, entry for entry, or registers exactly the given
names besides those that were there, replaces no entry, and hands out only symbols of the table. -/
def RegistersAllOrNothing {α : Type} (x : ExceptT LowerError Interning α) (table : SymbolTable)
    (named : QualifiedName → Prop) (handsOut : Symbol → α → Prop) : Prop :=
  (∃ e, perform x table = (.error e, table)) ∨
    ∃ a after, perform x table = (.ok a, after) ∧ after.Sound ∧ table.Extends after named ∧
      ∀ s, handsOut s a → after.Holds s

namespace RegistersAllOrNothing
variable {α β : Type} {x : ExceptT LowerError Interning α} {table : SymbolTable} {named : QualifiedName → Prop}
  {handsOut : Symbol → α → Prop}

theorem map (whole : RegistersAllOrNothing x table named handsOut) (f : α → β) {handsOut' : Symbol → β → Prop}
    (inside : ∀ s a, handsOut' s (f a) → handsOut s a) : RegistersAllOrNothing (f <$> x) table named handsOut' := by
  rcases whole with ⟨e, failed⟩ | ⟨a, after, run, sound, extend, own⟩
  · exact .inl ⟨e, perform_map_error failed⟩
  · exact .inr ⟨f a, after, perform_map run, sound, extend, fun s out => own s (inside s a out)⟩

end RegistersAllOrNothing

/-- The symbol of a name, if the name could be made. -/
theorem Symbol.registers {table : SymbolTable} (sound : table.Sound) {x : ExceptT LowerError Interning Symbol}
    {made : Except LowerError QualifiedName}
    (run : perform x table = match made with
      | .ok q => (.ok (table.intern q).1, (table.intern q).2)
      | .error e => (.error e, table)) :
    RegistersAllOrNothing x table (fun q => made = .ok q) (fun s t => s = t) := by
  cases made with
  | error e => exact .inl ⟨e, run⟩
  | ok q =>
    obtain ⟨keeps, extend, found⟩ := SymbolTable.intern_spec sound q
    refine .inr ⟨_, _, run, keeps, extend.congr (by simp [eq_comm]), ?_⟩
    rintro s rfl
    exact keeps.holds_of_find? found

namespace Draft

theorem toExpr_perform (resolver : Resolver) (d : Draft) (table : SymbolTable) :
    perform (d.toExpr resolver) table =
      match d.resolve resolver with
      | .ok r => perform r.toExpr table
      | .error e => (.error e, table) := by
  rw [toExpr, perform_bind_lift]
  cases d.resolve resolver <;> rfl

/-- Lowering fails exactly when a name cannot be resolved or a number cannot be built. -/
theorem toExpr_error_iff {table : SymbolTable} (sound : table.Sound) (resolver : Resolver) (d : Draft)
    (e : LowerError) : (perform (d.toExpr resolver) table).1 = .error e ↔ d.resolve resolver = .error e := by
  rw [toExpr_perform]
  cases made : d.resolve resolver with
  | error e => simp
  | ok r =>
    obtain ⟨x, after, run, _⟩ := r.toExpr_perform sound
    simp [run]

theorem toExpr_registers {table : SymbolTable} (sound : table.Sound) (resolver : Resolver) (d : Draft) :
    RegistersAllOrNothing (d.toExpr resolver) table (fun q => d.Names resolver q) Expr.Mentions := by
  rw [RegistersAllOrNothing, toExpr_perform]
  cases made : d.resolve resolver with
  | error e => exact .inl ⟨e, rfl⟩
  | ok r =>
    obtain ⟨e, after, run, afterSound, extend, own⟩ := r.toExpr_perform sound
    exact .inr ⟨e, after, run, afterSound, extend.congr fun q => resolve_names d made, own⟩

end Draft

namespace Tree

theorem lower_perform (resolver : Resolver) (t : Tree) (table : SymbolTable) :
    perform (t.lower resolver) table =
      match t.toDraft with
      | .ok d => perform (d.toExpr resolver) table
      | .error e => (.error e, table) := by
  rw [lower, perform_bind_lift]
  cases t.toDraft <;> rfl

/-- A tree is assembled of what its draft is resolved to. -/
theorem lower_perform_resolve (resolver : Resolver) (t : Tree) (table : SymbolTable) :
    perform (t.lower resolver) table =
      match t.toDraft >>= Draft.resolve resolver with
      | .ok r => perform r.toExpr table
      | .error e => (.error e, table) := by
  rw [lower_perform]
  cases t.toDraft with
  | error e => rfl
  | ok d => exact d.toExpr_perform resolver table

theorem lower_error_iff {table : SymbolTable} (sound : table.Sound) (resolver : Resolver) (t : Tree)
    (e : LowerError) :
    (perform (t.lower resolver) table).1 = .error e ↔ (t.toDraft >>= Draft.resolve resolver) = .error e := by
  rw [lower_perform]
  cases t.toDraft with
  | error _ => simp [bind, Except.bind]
  | ok d => exact d.toExpr_error_iff sound resolver e

theorem lower_registers {table : SymbolTable} (sound : table.Sound) (resolver : Resolver) (t : Tree) :
    RegistersAllOrNothing (t.lower resolver) table (fun q => t.Names resolver q) Expr.Mentions := by
  rw [RegistersAllOrNothing, lower_perform]
  cases made : t.toDraft with
  | error e => exact .inl ⟨e, rfl⟩
  | ok d =>
    rcases d.toExpr_registers sound resolver with failed | ⟨e, after, run, afterSound, extend, own⟩
    · exact .inl failed
    · exact .inr ⟨e, after, run, afterSound, extend.congr fun q => toDraft_names t made, own⟩

end Tree

end SymbolicKernel

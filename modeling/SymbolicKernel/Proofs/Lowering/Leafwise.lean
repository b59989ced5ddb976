import SymbolicKernel.Proofs.Session

/-!
Lowering leaf by leaf. The stages of lowering each go through the whole tree before the next begins, and yet the tree is
lowered as its leaves are, one by one. Main statement: `lowering_leaf_by_leaf`, which also tells which of several
failures is reported.
-/
namespace SymbolicKernel

open Interning

namespace Except

variable {ε α β γ : Type}

/-- The error with which a calculation ends, if it fails. -/
def failure? : Except ε α → Option ε
  | .error e => some e
  | .ok _ => none

theorem failure?_eq_some_iff {x : Except ε α} {e : ε} : failure? x = some e ↔ x = .error e := by
  cases x <;> simp [failure?]

theorem failure?_eq_none_iff {x : Except ε α} : failure? x = none ↔ ∃ a, x = .ok a := by
  cases x <;> simp [failure?]

/-- Of two steps in a row the first that fails decides. -/
theorem failure?_bind_bind (x : Except ε α) (y : Except ε β) (f : α → β → γ) :
    failure? (x >>= fun a => y >>= fun b => pure (f a b)) = (failure? x).or (failure? y) := by
  cases x with
  | error e => rfl
  | ok a =>
    cases y with
    | error e => rfl
    | ok b => rfl

end Except

namespace Tree

mutual

/-- The leaves of a syntax tree, those of a head before those of its children. -/
def leaves : Tree → List Tree
  | symbol context name => [symbol context name]
  | string raw => [string raw]
  | filename raw => [filename raw]
  | number l => [number l]
  | node head children => head.leaves ++ rowLeaves children

def rowLeaves : List Tree → List Tree
  | [] => []
  | t :: ts => t.leaves ++ rowLeaves ts

end

mutual

/-- The expression of the shape of a tree, with an expression in the place of each leaf. -/
def graft (f : Tree → Expr) : Tree → Expr
  | symbol context name => f (symbol context name)
  | string raw => f (string raw)
  | filename raw => f (filename raw)
  | number l => f (number l)
  | node head children => .compound (head.graft f) (rowGraft f children)

def rowGraft (f : Tree → Expr) : List Tree → List Expr
  | [] => []
  | t :: ts => t.graft f :: rowGraft f ts

end

/-- Why a leaf cannot be decoded. Only a number literal can be refused. -/
def literalError? : Tree → Option LowerError
  | number l => Except.failure? l.toDraft
  | _ => none

/-- What is left of lowering a tree when only the symbols are yet to be registered. -/
def toResolved (resolver : Resolver) (t : Tree) : Except LowerError Resolved :=
  t.toDraft >>= Draft.resolve resolver

def rowToResolved (resolver : Resolver) (ts : List Tree) : Except LowerError (List Resolved) :=
  toDrafts ts >>= Draft.resolveAll resolver

variable {resolver : Resolver}

mutual

/-- The first stage fails with the first literal that is refused. -/
theorem failure?_toDraft : (t : Tree) → Except.failure? t.toDraft = t.leaves.findSome? literalError?
  | symbol (some context) name | symbol none name | string raw | filename raw => rfl
  | number l => by
    rw [leaves, List.findSome?_singleton]
    rfl
  | node head children => by
    rw [toDraft, Except.failure?_bind_bind, failure?_toDraft head, failure?_toDrafts children, leaves,
      List.findSome?_append]

theorem failure?_toDrafts : (ts : List Tree) →
    Except.failure? (toDrafts ts) = (rowLeaves ts).findSome? literalError?
  | [] => rfl
  | t :: ts => by
    rw [toDrafts, Except.failure?_bind_bind, failure?_toDraft t, failure?_toDrafts ts, rowLeaves,
      List.findSome?_append]

end

mutual

/-- Once all literals are decoded, the next stage fails with the first leaf that cannot be resolved or built. -/
theorem failure?_resolve : (t : Tree) → {d : Draft} → t.toDraft = .ok d →
    Except.failure? (d.resolve resolver) = t.leaves.findSome? fun leaf => Except.failure? (leaf.toResolved resolver)
  | symbol _ _, d, made | string _, d, made | filename _, d, made | number _, d, made => by
    rw [leaves, List.findSome?_singleton, toResolved, made]
    rfl
  | node head children, d, made => by
    rw [toDraft] at made
    obtain ⟨h, headMade, made⟩ := Except.bind_ok_iff.mp made
    obtain ⟨cs, childrenMade, made⟩ := Except.bind_ok_iff.mp made
    cases made
    rw [Draft.resolve, Except.failure?_bind_bind, failure?_resolve head headMade,
      failure?_resolveAll children childrenMade, leaves, List.findSome?_append]

theorem failure?_resolveAll : (ts : List Tree) → {ds : List Draft} → toDrafts ts = .ok ds →
    Except.failure? (Draft.resolveAll resolver ds) =
      (rowLeaves ts).findSome? fun leaf => Except.failure? (leaf.toResolved resolver)
  | [], ds, made => by
    cases made
    rfl
  | t :: ts, ds, made => by
    rw [toDrafts] at made
    obtain ⟨d, firstMade, made⟩ := Except.bind_ok_iff.mp made
    obtain ⟨rest, restMade, made⟩ := Except.bind_ok_iff.mp made
    cases made
    rw [Draft.resolveAll, Except.failure?_bind_bind, failure?_resolve t firstMade, failure?_resolveAll ts restMade,
      rowLeaves, List.findSome?_append]

end

/-- A refused literal comes before whatever else fails, wherever they stand. -/
theorem failure?_toResolved (t : Tree) :
    Except.failure? (t.toResolved resolver) =
      (t.leaves.findSome? literalError?).or
        (t.leaves.findSome? fun leaf => Except.failure? (leaf.toResolved resolver)) := by
  rw [← failure?_toDraft, toResolved]
  cases made : t.toDraft with
  | error e => rfl
  | ok d => exact failure?_resolve t made

theorem failure?_of_literalError? {t : Tree} {e : LowerError} (refused : t.literalError? = some e) :
    Except.failure? (t.toResolved resolver) = some e := by
  cases t with
  | number l =>
    rw [literalError?, Except.failure?_eq_some_iff] at refused
    rw [toResolved, toDraft, refused]
    rfl
  | symbol _ _ | string _ | filename _ | node _ _ => cases refused

theorem failure?_toResolved_eq_none_iff (t : Tree) :
    Except.failure? (t.toResolved resolver) = none ↔
      ∀ leaf ∈ t.leaves, Except.failure? (leaf.toResolved resolver) = none := by
  rw [failure?_toResolved, Option.or_eq_none_iff, List.findSome?_eq_none_iff, List.findSome?_eq_none_iff]
  constructor
  · exact And.right
  · intro built
    refine ⟨fun leaf member => ?_, built⟩
    -- a literal that the first stage refuses is a leaf that is not built
    cases refused : leaf.literalError? with
    | none => rfl
    | some e =>
      have failed : Except.failure? (leaf.toResolved resolver) = some e := failure?_of_literalError? refused
      rw [built leaf member] at failed
      cases failed

/-- On success it makes no difference that all literals of a tree are decoded before its first name is looked up. -/
theorem toResolved_node_ok {head : Tree} {children : List Tree} {r : Resolved}
    (made : (node head children).toResolved resolver = .ok r) :
    ∃ h cs, head.toResolved resolver = .ok h ∧ rowToResolved resolver children = .ok cs ∧ .expression h cs = r := by
  obtain ⟨d, drafted, made⟩ := Except.bind_ok_iff.mp made
  rw [toDraft] at drafted
  obtain ⟨h, headDraft, drafted⟩ := Except.bind_ok_iff.mp drafted
  obtain ⟨cs, childrenDraft, drafted⟩ := Except.bind_ok_iff.mp drafted
  cases drafted
  rw [Draft.resolve] at made
  obtain ⟨h', headMade, made⟩ := Except.bind_ok_iff.mp made
  obtain ⟨cs', childrenMade, made⟩ := Except.bind_ok_iff.mp made
  cases made
  exact ⟨h', cs', Except.bind_ok_iff.mpr ⟨h, headDraft, headMade⟩,
    Except.bind_ok_iff.mpr ⟨cs, childrenDraft, childrenMade⟩, rfl⟩

theorem rowToResolved_cons_ok {t : Tree} {ts : List Tree} {rs : List Resolved}
    (made : rowToResolved resolver (t :: ts) = .ok rs) :
    ∃ r rest, t.toResolved resolver = .ok r ∧ rowToResolved resolver ts = .ok rest ∧ r :: rest = rs := by
  obtain ⟨ds, drafted, made⟩ := Except.bind_ok_iff.mp made
  rw [toDrafts] at drafted
  obtain ⟨d, firstDraft, drafted⟩ := Except.bind_ok_iff.mp drafted
  obtain ⟨ds', restDraft, drafted⟩ := Except.bind_ok_iff.mp drafted
  cases drafted
  rw [Draft.resolveAll] at made
  obtain ⟨r, firstMade, made⟩ := Except.bind_ok_iff.mp made
  obtain ⟨rest, restMade, made⟩ := Except.bind_ok_iff.mp made
  cases made
  exact ⟨r, rest, Except.bind_ok_iff.mpr ⟨d, firstDraft, firstMade⟩,
    Except.bind_ok_iff.mpr ⟨ds', restDraft, restMade⟩, rfl⟩

mutual

/-- If a tree can be resolved, so can its leaves, and they name nothing but what the tree names. -/
theorem toResolved_leaves : (t : Tree) → {r : Resolved} → t.toResolved resolver = .ok r →
    ∀ leaf ∈ t.leaves, ∃ r', leaf.toResolved resolver = .ok r' ∧ ∀ q, r'.Names q → r.Names q
  | symbol _ _, r, made | string _, r, made | filename _, r, made | number _, r, made => by
    intro leaf member
    rw [leaves, List.mem_singleton] at member
    rw [member]
    exact ⟨r, made, fun q inside => inside⟩
  | node head children, r, made => by
    obtain ⟨h, cs, headMade, childrenMade, rfl⟩ := toResolved_node_ok made
    intro leaf member
    rcases List.mem_append.mp member with inHead | inChild
    · obtain ⟨r', leafMade, named⟩ := toResolved_leaves head headMade leaf inHead
      exact ⟨r', leafMade, fun q inside => .head (named q inside)⟩
    · obtain ⟨r', leafMade, named⟩ := rowToResolved_leaves children childrenMade leaf inChild
      refine ⟨r', leafMade, fun q inside => ?_⟩
      obtain ⟨c, child, names⟩ := named q inside
      exact .child child names

theorem rowToResolved_leaves : (ts : List Tree) → {rs : List Resolved} → rowToResolved resolver ts = .ok rs →
    ∀ leaf ∈ rowLeaves ts, ∃ r', leaf.toResolved resolver = .ok r' ∧ ∀ q, r'.Names q → ∃ r ∈ rs, r.Names q
  | [], rs, made => by
    intro leaf member
    cases member
  | t :: ts, rs, made => by
    obtain ⟨r, rest, firstMade, restMade, rfl⟩ := rowToResolved_cons_ok made
    intro leaf member
    rcases List.mem_append.mp member with inFirst | inRest
    · obtain ⟨r', leafMade, named⟩ := toResolved_leaves t firstMade leaf inFirst
      exact ⟨r', leafMade, fun q inside => ⟨r, List.mem_cons_self, named q inside⟩⟩
    · obtain ⟨r', leafMade, named⟩ := rowToResolved_leaves ts restMade leaf inRest
      refine ⟨r', leafMade, fun q inside => ?_⟩
      obtain ⟨c, member, names⟩ := named q inside
      exact ⟨c, List.mem_cons_of_mem r member, names⟩

end

end Tree

mutual

/-- An expression with each symbol taken for the first one of its table: of a symbol only the name is left. -/
def Expr.unplaced : Expr → Expr
  | .symbol s => .symbol { s with serial := 0 }
  | .number n => .number n
  | .string text => .string text
  | .compound head leaves => .compound head.unplaced (Expr.rowUnplaced leaves)

def Expr.rowUnplaced : List Expr → List Expr
  | [] => []
  | e :: es => e.unplaced :: Expr.rowUnplaced es

end

namespace Resolved

mutual

/-- The expression whose symbols are those of a table. -/
def exprIn (table : SymbolTable) : Resolved → Expr
  | symbol q => .symbol (table.intern q).1
  | number n => .number n
  | string text => .string text
  | expression head children => .compound (head.exprIn table) (rowExprIn table children)

def rowExprIn (table : SymbolTable) : List Resolved → List Expr
  | [] => []
  | r :: rs => r.exprIn table :: rowExprIn table rs

end

mutual

theorem unplaced_exprIn {table later : SymbolTable} (sound : table.Sound) (laterSound : later.Sound) :
    (r : Resolved) → (r.exprIn table).unplaced = (r.exprIn later).unplaced
  | symbol q => by
    obtain ⟨i, here⟩ := SymbolTable.intern_eq_ofName sound q
    obtain ⟨j, there⟩ := SymbolTable.intern_eq_ofName laterSound q
    rw [exprIn, exprIn, here, there]
    rfl
  | number n => rfl
  | string text => rfl
  | expression head children => by
    rw [exprIn, exprIn, Expr.unplaced, Expr.unplaced, unplaced_exprIn sound laterSound head,
      rowUnplaced_rowExprIn sound laterSound children]

theorem rowUnplaced_rowExprIn {table later : SymbolTable} (sound : table.Sound) (laterSound : later.Sound) :
    (rs : List Resolved) → Expr.rowUnplaced (rowExprIn table rs) = Expr.rowUnplaced (rowExprIn later rs)
  | [] => rfl
  | r :: rs => by
    rw [rowExprIn, rowExprIn, Expr.rowUnplaced, Expr.rowUnplaced, unplaced_exprIn sound laterSound r,
      rowUnplaced_rowExprIn sound laterSound rs]

end

/-- All names of a resolved expression are registered. -/
def RegisteredIn (table : SymbolTable) (r : Resolved) : Prop := ∀ q, r.Names q → q.text ∈ table.names

mutual

/-- To assemble an expression of registered names registers nothing: it takes the symbols that are there. -/
theorem toExpr_of_registeredIn {table : SymbolTable} : (r : Resolved) → r.RegisteredIn table →
    perform r.toExpr table = (.ok (r.exprIn table), table)
  | symbol q, registered => by
    obtain ⟨s, found⟩ := SymbolTable.find?_isSome_iff.mpr (registered q .symbol)
    rw [toExpr, exprIn]
    apply perform_map
    rw [perform_adapt, Symbol.ofParts_perform_self, SymbolTable.intern_of_find? found]
    rfl
  | number n, _ => rfl
  | string text, _ => rfl
  | expression head children, registered => by
    have headRun := toExpr_of_registeredIn head (fun q inside => registered q (.head inside))
    have childrenRun := toExprs_of_registeredIn children
      (fun r member q inside => registered q (.child member inside))
    rw [toExpr, perform_bind headRun, perform_bind childrenRun]
    rfl

theorem toExprs_of_registeredIn {table : SymbolTable} : (rs : List Resolved) → (∀ r ∈ rs, r.RegisteredIn table) →
    perform (toExprs rs) table = (.ok (rowExprIn table rs), table)
  | [], _ => rfl
  | r :: rs, registered => by
    have firstRun := toExpr_of_registeredIn r (registered r List.mem_cons_self)
    have restRun := toExprs_of_registeredIn rs (fun s member => registered s (List.mem_cons_of_mem r member))
    rw [toExprs, perform_bind firstRun, perform_bind restRun]
    rfl

end

theorem toExpr_extends {table after : SymbolTable} (sound : table.Sound) {r : Resolved} {e : Expr}
    (made : perform r.toExpr table = (.ok e, after)) : after.Sound ∧ table.Extends after (fun q => r.Names q) := by
  obtain ⟨e', after', run, afterSound, extend, _⟩ := r.toExpr_perform sound
  rw [made] at run
  cases run
  exact ⟨afterSound, extend⟩

mutual

/-- A symbol that was taken early is still the one of its name when the last name is registered. -/
theorem toExpr_eq_exprIn {table : SymbolTable} (sound : table.Sound) : (r : Resolved) →
    {after later : SymbolTable} → {e : Expr} → {added : QualifiedName → Prop} →
    perform r.toExpr table = (.ok e, after) → after.Extends later added → e = r.exprIn later
  | symbol q, after, later, e, added, made, extend => by
    have taken : perform (symbol q).toExpr table = (.ok (.symbol (table.intern q).1), (table.intern q).2) := by
      rw [toExpr]
      apply perform_map
      rw [perform_adapt, Symbol.ofParts_perform_self]
      rfl
    rw [taken] at made
    cases made
    have found := extend.find? (SymbolTable.intern_spec sound q).2.2
    rw [exprIn, SymbolTable.intern_of_find? found]
  | number n, after, later, e, added, made, _ => by
    cases made
    rfl
  | string text, after, later, e, added, made, _ => by
    cases made
    rfl
  | expression head children, after, later, e, added, made, extend => by
    obtain ⟨h, middle, headRun, middleSound, _, _⟩ := head.toExpr_perform sound
    obtain ⟨cs, last, childrenRun, _, childrenExtend, _⟩ := toExprs_perform middleSound children
    rw [toExpr, perform_bind headRun, perform_bind childrenRun] at made
    cases made
    -- what the children add to the table lies between the head and the last table
    rw [exprIn, toExpr_eq_exprIn sound head headRun (childrenExtend.trans extend),
      toExprs_eq_rowExprIn middleSound children childrenRun extend]

theorem toExprs_eq_rowExprIn {table : SymbolTable} (sound : table.Sound) : (rs : List Resolved) →
    {after later : SymbolTable} → {es : List Expr} → {added : QualifiedName → Prop} →
    perform (toExprs rs) table = (.ok es, after) → after.Extends later added → es = rowExprIn later rs
  | [], after, later, es, added, made, _ => by
    cases made
    rfl
  | r :: rs, after, later, es, added, made, extend => by
    obtain ⟨x, middle, firstRun, middleSound, _, _⟩ := r.toExpr_perform sound
    obtain ⟨rest, last, restRun, _, restExtend, _⟩ := toExprs_perform middleSound rs
    rw [toExprs, perform_bind firstRun, perform_bind restRun] at made
    cases made
    rw [rowExprIn, toExpr_eq_exprIn sound r firstRun (restExtend.trans extend),
      toExprs_eq_rowExprIn middleSound rs restRun extend]

end

end Resolved

namespace Tree

variable {resolver : Resolver} {table : SymbolTable}

theorem lower_perform_toResolved (resolver : Resolver) (t : Tree) (table : SymbolTable) :
    perform (t.lower resolver) table =
      match t.toResolved resolver with
      | .ok r => perform r.toExpr table
      | .error e => (.error e, table) :=
  lower_perform_resolve resolver t table

theorem failure?_lower (sound : table.Sound) (resolver : Resolver) (t : Tree) :
    Except.failure? (perform (t.lower resolver) table).1 = Except.failure? (t.toResolved resolver) := by
  apply Option.ext
  intro e
  rw [Except.failure?_eq_some_iff, Except.failure?_eq_some_iff]
  exact t.lower_error_iff sound resolver e

/-- The expression of a tree whose symbols are those of a table. A tree that is not lowered has none, and gives the
empty text. -/
def exprIn (resolver : Resolver) (table : SymbolTable) (t : Tree) : Expr :=
  match t.toResolved resolver with
  | .ok r => r.exprIn table
  | .error _ => .string ""

theorem exprIn_of_toResolved {t : Tree} {r : Resolved} (made : t.toResolved resolver = .ok r) :
    t.exprIn resolver table = r.exprIn table := by
  rw [exprIn, made]

mutual

/-- The expression of a tree is put together of those of its leaves. -/
theorem graft_exprIn : (t : Tree) → {r : Resolved} → t.toResolved resolver = .ok r →
    t.graft (exprIn resolver table) = r.exprIn table
  | symbol _ _, r, made | string _, r, made | filename _, r, made | number _, r, made => by
    rw [graft, exprIn_of_toResolved made]
  | node head children, r, made => by
    obtain ⟨h, cs, headMade, childrenMade, rfl⟩ := toResolved_node_ok made
    rw [graft, graft_exprIn head headMade, rowGraft_exprIn children childrenMade, Resolved.exprIn]

theorem rowGraft_exprIn : (ts : List Tree) → {rs : List Resolved} → rowToResolved resolver ts = .ok rs →
    rowGraft (exprIn resolver table) ts = Resolved.rowExprIn table rs
  | [], rs, made => by
    cases made
    rfl
  | t :: ts, rs, made => by
    obtain ⟨r, rest, firstMade, restMade, rfl⟩ := rowToResolved_cons_ok made
    rw [rowGraft, graft_exprIn t firstMade, rowGraft_exprIn ts restMade, Resolved.rowExprIn]

end

theorem lower_succeeds_iff (sound : table.Sound) (resolver : Resolver) (t : Tree) :
    (∃ e after, perform (t.lower resolver) table = (.ok e, after)) ↔
      Except.failure? (t.toResolved resolver) = none := by
  rw [← failure?_lower sound, Except.failure?_eq_none_iff]
  constructor
  · rintro ⟨e, after, run⟩
    exact ⟨e, by rw [run]⟩
  · rintro ⟨e, run⟩
    exact ⟨e, _, Prod.ext run rfl⟩

theorem lower_ok_iff {t : Tree} {after : SymbolTable} {e : Expr} :
    perform (t.lower resolver) table = (.ok e, after) ↔
      ∃ r, t.toResolved resolver = .ok r ∧ perform r.toExpr table = (.ok e, after) := by
  rw [lower_perform_toResolved]
  cases t.toResolved resolver <;> simp

theorem lower_eq_graft (sound : table.Sound) {t : Tree} {after : SymbolTable} {e : Expr}
    (run : perform (t.lower resolver) table = (.ok e, after)) : e = t.graft (exprIn resolver after) := by
  obtain ⟨r, made, assembled⟩ := lower_ok_iff.mp run
  rw [graft_exprIn t made]
  exact r.toExpr_eq_exprIn sound assembled (SymbolTable.Extends.refl after)

/-- A leaf of a tree that was lowered is lowered by itself to the very expression that stands in its place, and before
that to the same one but for the instance of a symbol. -/
theorem lower_leaf (sound : table.Sound) {t leaf : Tree} {after : SymbolTable} {e : Expr}
    (run : perform (t.lower resolver) table = (.ok e, after)) (member : leaf ∈ t.leaves) :
    perform (leaf.lower resolver) after = (.ok (leaf.exprIn resolver after), after) ∧
      ∃ own left, perform (leaf.lower resolver) table = (.ok own, left) ∧
        own.unplaced = (leaf.exprIn resolver after).unplaced := by
  obtain ⟨r, made, assembled⟩ := lower_ok_iff.mp run
  obtain ⟨afterSound, extend⟩ := Resolved.toExpr_extends sound assembled
  obtain ⟨r', leafMade, named⟩ := toResolved_leaves t made leaf member
  rw [exprIn_of_toResolved leafMade]
  constructor
  · apply lower_ok_iff.mpr
    refine ⟨r', leafMade, r'.toExpr_of_registeredIn fun q inside => ?_⟩
    exact (extend.names q.text).mpr (.inr ⟨q, named q inside, rfl⟩)
  · obtain ⟨own, left, ownRun, leftSound, _, _⟩ := r'.toExpr_perform sound
    refine ⟨own, left, lower_ok_iff.mpr ⟨r', leafMade, ownRun⟩, ?_⟩
    rw [r'.toExpr_eq_exprIn sound ownRun (SymbolTable.Extends.refl left)]
    exact r'.unplaced_exprIn leftSound afterSound

/-- A tree is lowered exactly when each of its leaves can be lowered by itself. The expression then has the shape of the
tree, and in the place of a leaf stands what the leaf is lowered to by itself: before, it is the same but for the
instance of a symbol, and afterwards it is the very same. Otherwise the first literal that is refused decides the error,
even behind a name that is not resolved, and without one the first leaf that cannot be lowered. -/
theorem lowering_leaf_by_leaf {history : List Event} (session : Session history table) (resolver : Resolver)
    (t : Tree) :
    ((∃ e after, perform (t.lower resolver) table = (.ok e, after)) ↔
      ∀ leaf ∈ t.leaves, ∃ e after, perform (leaf.lower resolver) table = (.ok e, after)) ∧
    (∀ e after, perform (t.lower resolver) table = (.ok e, after) →
      ∃ f, e = t.graft f ∧ ∀ leaf ∈ t.leaves, perform (leaf.lower resolver) after = (.ok (f leaf), after) ∧
        ∃ own left, perform (leaf.lower resolver) table = (.ok own, left) ∧ own.unplaced = (f leaf).unplaced) ∧
    ∀ e, (perform (t.lower resolver) table).1 = .error e ↔
      (t.leaves.findSome? literalError?).or
        (t.leaves.findSome? fun leaf => Except.failure? (perform (leaf.lower resolver) table).1) = some e := by
  have sound := session.invariant.1
  refine ⟨?_, ?_, ?_⟩
  · simp only [lower_succeeds_iff sound]
    exact failure?_toResolved_eq_none_iff t
  · intro e after run
    exact ⟨exprIn resolver after, lower_eq_graft sound run, fun leaf member => lower_leaf sound run member⟩
  · intro e
    rw [← Except.failure?_eq_some_iff]
    simp only [failure?_lower sound]
    rw [← failure?_toResolved]

/-- Of a missing name and two literals that are refused behind it the first literal is reported. -/
theorem lowering_leaf_by_leaf_of_refused_literal :
    let t := node (symbol none "missing")
      [node (number (.decimal "1.5")) [number (.decimal "1.2.3")], symbol (some "Global") "x", number (.decimal "z")]
    Session [] .fresh ∧
      (perform (t.lower fun _ => none) .fresh).1 = .error (.malformedNumber "1.2.3") := by
  intro t
  exact ⟨.start, ((lowering_leaf_by_leaf .start _ t).2.2 _).mpr rfl⟩

end Tree

end SymbolicKernel

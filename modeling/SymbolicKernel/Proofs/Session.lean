import SymbolicKernel.Proofs.Lowering.Registration

namespace SymbolicKernel

/-- A use of the table of symbols. -/
inductive Call where
  | ofText (raw : String)
  | ofParts (context name : String)
  | lookup (raw : String)
  | head (e : Expr)
  | build (resolver : Resolver) (d : Draft)
  | lower (resolver : Resolver) (t : Tree)

/-- What a call hands out. -/
inductive Reply where
  | symbol (s : Symbol)
  | found (s : Option Symbol)
  | expr (e : Expr)

structure Event where
  call : Call
  answer : Except LowerError Reply

open Interning

namespace Call

/-- The refusal of a malformed name, in the form that all calls share. -/
def refuse (e : MalformedName) : LowerError := .expr (.name e)

def run : Call → ExceptT LowerError Interning Reply
  | ofText raw => Reply.symbol <$> (Symbol.ofText raw).adapt refuse
  | ofParts context name => Reply.symbol <$> (Symbol.ofParts context name).adapt refuse
  | lookup raw => do
    let table ← get
    let found ← liftM ((table.lookup raw).mapError refuse)
    return .found found
  | head e => do return .expr (← e.head)
  | build resolver d => Reply.expr <$> d.toExpr resolver
  | lower resolver t => Reply.expr <$> t.lower resolver

/-- The symbols a call is handed: those of the expression whose head is asked for. -/
def Takes (s : Symbol) : Call → Prop
  | head e => e.Mentions s
  | _ => False

/-- The names that a call registers if it succeeds. Asking for a head registers those of all kinds of atom, and
looking a name up registers none. -/
def Registers (q : QualifiedName) : Call → Prop
  | ofText raw => QualifiedName.parse raw = .ok q
  | ofParts context name => QualifiedName.ofParts context name = .ok q
  | lookup _ => False
  | head _ => ∃ k ∈ Expr.atomKinds, Expr.kindName k = q
  | build resolver d => d.Names resolver q
  | lower resolver t => t.Names resolver q

end Call

def Reply.HandsOut (s : Symbol) : Reply → Prop
  | symbol t => s = t
  | found t => t = some s
  | expr e => e.Mentions s

namespace Event

def HandsOut (s : Symbol) (event : Event) : Prop :=
  ∃ reply, event.answer = .ok reply ∧ reply.HandsOut s

def Registers (q : QualifiedName) (event : Event) : Prop :=
  (∃ reply, event.answer = .ok reply) ∧ event.call.Registers q

end Event

/-- A symbol that is at hand after some calls: the root always is, any other was handed out by one of them. -/
def AtHand (history : List Event) (s : Symbol) : Prop :=
  s = Symbol.root ∨ ∃ event ∈ history, event.HandsOut s

/-- A name that is registered after some calls: that of the root always is. -/
def Registered (history : List Event) (n : String) : Prop :=
  n = Symbol.root.qualifiedName ∨ ∃ event ∈ history, ∃ q, event.Registers q ∧ q.text = n

/-- All that can happen to the one table from its creation on. Calls come in any order and may fail; the symbols
in their arguments are at hand when they are made. -/
inductive Session : List Event → SymbolTable → Prop
  | start : Session [] .fresh
  | call {history : List Event} {table : SymbolTable} (c : Call) :
      Session history table → (∀ s, c.Takes s → AtHand history s) →
      Session (history ++ [⟨c, (perform c.run table).1⟩]) (perform c.run table).2

namespace Expr

/-- Registering names one after the other adds just those. -/
theorem forM_intern_spec {table : SymbolTable} (sound : table.Sound) (kinds : List Kind) :
    ∃ after, (kinds.forM fun k => do let _ ← Symbol.intern (kindName k) : Interning Unit).run table = ((), after) ∧
      after.Sound ∧ table.Extends after fun q => ∃ k ∈ kinds, kindName k = q := by
  induction kinds generalizing table with
  | nil => exact ⟨table, rfl, sound, (SymbolTable.Extends.refl table).congr (by simp)⟩
  | cons k kinds ih =>
    obtain ⟨keeps, first, _⟩ := SymbolTable.intern_spec sound (kindName k)
    obtain ⟨after, run, afterSound, rest⟩ := ih keeps
    exact ⟨after, run, afterSound, (first.trans rest).congr (by simp [eq_comm])⟩

theorem kind_mem_atomKinds (n : Number) : n.kind ∈ atomKinds := by
  cases n with
  | real x => cases x <;> simp [Number.kind, RealNumber.kind, atomKinds]
  | complex re im => simp [Number.kind, atomKinds]

/-- The symbol that is named like a kind of atom adds nothing once all of them are there. -/
theorem kindSymbol_spec {table middle : SymbolTable} (sound : middle.Sound)
    (extend : table.Extends middle fun q => ∃ k ∈ atomKinds, kindName k = q) {k : Kind} (isAtom : k ∈ atomKinds) :
    ∃ h after, (do return symbol (← Symbol.intern (kindName k)) : Interning Expr).run middle = (h, after) ∧
      after.Sound ∧ table.Extends after (fun q => ∃ k ∈ atomKinds, kindName k = q) ∧
      ∀ s, h.Mentions s → after.Holds s := by
  obtain ⟨keeps, last, found⟩ := SymbolTable.intern_spec sound (kindName k)
  refine ⟨_, _, rfl, keeps, (extend.trans last).congr fun q => ?_, ?_⟩
  · constructor
    · rintro (known | rfl)
      · exact known
      · exact ⟨k, isAtom, rfl⟩
    · exact Or.inl
  · intro s inside
    rw [mentions_symbol.mp inside]
    exact keeps.holds_of_find? found

/-- Asking for a head registers the heads of all atoms, and the answer is a part of the expression, the root, or
one of them. -/
theorem head_spec {table : SymbolTable} (sound : table.Sound) (e : Expr)
    (own : ∀ s, e.Mentions s → table.Holds s) :
    ∃ h after, e.head.run table = (h, after) ∧ after.Sound ∧
      table.Extends after (fun q => ∃ k ∈ atomKinds, kindName k = q) ∧ ∀ s, h.Mentions s → after.Holds s := by
  obtain ⟨middle, heads, middleSound, extend⟩ := forM_intern_spec sound atomKinds
  unfold head internAtomHeads
  rw [StateT.run_bind, heads]
  cases e with
  | compound h leaves => exact ⟨h, middle, rfl, middleSound, extend, fun s inside => extend.holds (own s (.head inside))⟩
  | symbol t =>
    refine ⟨.symbol .root, middle, rfl, middleSound, extend, fun s inside => ?_⟩
    rw [mentions_symbol.mp inside]
    exact middleSound.holds_root
  | number n => exact kindSymbol_spec middleSound extend (kind_mem_atomKinds n)
  | string text => exact kindSymbol_spec middleSound extend (k := .string) (by simp [atomKinds])

end Expr

/-- What one call preserves and what it adds. -/
theorem Call.run_registers {table : SymbolTable} (sound : table.Sound) (c : Call)
    (own : ∀ s, c.Takes s → table.Holds s) :
    RegistersAllOrNothing c.run table (fun q => c.Registers q) Reply.HandsOut := by
  cases c with
  | ofText raw =>
    have whole : RegistersAllOrNothing ((Symbol.ofText raw).adapt refuse) table
        (fun q => (QualifiedName.parse raw).mapError refuse = .ok q) (fun s t => s = t) := by
      apply Symbol.registers sound
      rw [perform_adapt, Symbol.ofText_perform]
      cases QualifiedName.parse raw <;> rfl
    simp only [Except.mapError_ok_iff] at whole
    exact whole.map Reply.symbol fun s t out => out
  | ofParts context name =>
    have whole : RegistersAllOrNothing ((Symbol.ofParts context name).adapt refuse) table
        (fun q => (QualifiedName.ofParts context name).mapError refuse = .ok q) (fun s t => s = t) := by
      apply Symbol.registers sound
      rw [perform_adapt, Symbol.ofParts_perform]
      cases QualifiedName.ofParts context name <;> rfl
    simp only [Except.mapError_ok_iff] at whole
    exact whole.map Reply.symbol fun s t out => out
  | lookup raw =>
    cases read : QualifiedName.parse raw with
    | error e =>
      refine .inl ⟨refuse e, ?_⟩
      simp [run, SymbolTable.lookup, read]
      rfl
    | ok q =>
      refine .inr ⟨.found (table.find? q.text), table, ?_, sound, SymbolTable.Extends.refl table, ?_⟩
      · simp [run, SymbolTable.lookup, read]
        rfl
      · intro s out
        exact sound.holds_of_find? out
  | head e =>
    obtain ⟨h, after, headRun, rest⟩ := e.head_spec sound own
    have lifted : perform (liftM e.head : ExceptT LowerError Interning Expr) table = (.ok h, after) := by
      change (Except.ok (e.head.run table).1, (e.head.run table).2) = _
      rw [headRun]
    exact .inr ⟨.expr h, after, by rw [run, perform_bind lifted, perform_pure], rest⟩
  | build resolver d => exact (d.toExpr_registers sound resolver).map Reply.expr fun s e out => out
  | lower resolver t => exact (t.lower_registers sound resolver).map Reply.expr fun s e out => out

namespace Session
variable {history : List Event} {table : SymbolTable}

/-- What holds after every session: the table is sound, it holds all symbols at hand, and its names are those that
were registered. -/
theorem invariant (session : Session history table) :
    table.Sound ∧ (∀ s, AtHand history s → table.Holds s) ∧ ∀ n, n ∈ table.names ↔ Registered history n := by
  induction session with
  | start =>
    refine ⟨.fresh, ?_, fun n => ?_⟩
    · rintro s (rfl | ⟨event, member, _⟩)
      · exact SymbolTable.Sound.fresh.holds_root
      · cases member
    · simp [Registered, SymbolTable.fresh, SymbolTable.names]
  | @call history table c session given ih =>
    obtain ⟨sound, own, names⟩ := ih
    rcases c.run_registers sound (fun s takes => own s (given s takes)) with
      ⟨e, failed⟩ | ⟨reply, after, run, afterSound, extend, out⟩
    · rw [failed]
      refine ⟨sound, ?_, fun n => ?_⟩
      · rintro s (rfl | ⟨event, member, reply, answer, inside⟩)
        · exact sound.holds_root
        · rcases List.mem_append.mp member with earlier | last
          · exact own s (.inr ⟨event, earlier, reply, answer, inside⟩)
          · rw [List.mem_singleton.mp last] at answer
            cases answer
      · rw [names]
        simp [Registered, Event.Registers, or_and_right, exists_or]
    · rw [run]
      refine ⟨afterSound, ?_, fun n => ?_⟩
      · rintro s (rfl | ⟨event, member, reply', answer, inside⟩)
        · exact afterSound.holds_root
        · rcases List.mem_append.mp member with earlier | last
          · exact extend.holds (own s (.inr ⟨event, earlier, reply', answer, inside⟩))
          · rw [List.mem_singleton.mp last] at answer
            cases answer
            exact out s inside
      · rw [extend.names, names]
        simp [Registered, Event.Registers, or_and_right, exists_or, or_assoc]

theorem perform_lookup (raw : String) (table : SymbolTable) :
    perform (Call.lookup raw).run table =
      match QualifiedName.parse raw with
      | .ok q => (.ok (.found (table.find? q.text)), table)
      | .error e => (.error (Call.refuse e), table) := by
  cases read : QualifiedName.parse raw <;> simp [Call.run, SymbolTable.lookup, read] <;> rfl

theorem perform_ofText {raw : String} {q : QualifiedName} (read : QualifiedName.parse raw = .ok q)
    (table : SymbolTable) :
    perform (Call.ofText raw).run table = (.ok (.symbol (table.intern q).1), (table.intern q).2) := by
  apply perform_map
  rw [perform_adapt, Symbol.ofText_perform, read]
  rfl

theorem perform_ofParts {context name : String} {q : QualifiedName}
    (made : QualifiedName.ofParts context name = .ok q) (table : SymbolTable) :
    perform (Call.ofParts context name).run table = (.ok (.symbol (table.intern q).1), (table.intern q).2) := by
  apply perform_map
  rw [perform_adapt, Symbol.ofParts_perform, made]
  rfl

/-- A call leaves at least the symbols that were there, and one that fails leaves just these. -/
theorem size_le_of_call (session : Session history table) (c : Call) (given : ∀ s, c.Takes s → AtHand history s) :
    table.size ≤ (perform c.run table).2.size ∧
      ∀ e, (perform c.run table).1 = .error e → (perform c.run table).2 = table := by
  obtain ⟨sound, own, _⟩ := session.invariant
  rcases c.run_registers sound (fun s takes => own s (given s takes)) with ⟨e, failed⟩ | ⟨reply, after, run, _, extend, _⟩
  · rw [failed]
    exact ⟨le_rfl, fun _ _ => rfl⟩
  · rw [run]
    exact ⟨extend.size_le, nofun⟩

/-- Names and symbols correspond one to one over a whole session, by whatever calls, in whatever order and with
whatever failures they were registered. -/
theorem names_identify_symbols (session : Session history table) :
    (∀ s t, AtHand history s → AtHand history t →
      (s.isInstance t = true ↔ s.qualifiedName = t.qualifiedName)) ∧
    (∀ n s, table.find? n = some s → s.qualifiedName = n ∧
      (QualifiedName.parse n).map (fun q => (q.context, q.name)) = .ok (s.context, s.shortName)) ∧
    (table.entries.head? = some ("System`Symbol", Symbol.root) ∧
      table.find? "System`Symbol" = some Symbol.root) ∧
    (table.names.Nodup ∧ ∀ n, n ∈ table.names ↔ Registered history n) ∧
    (∀ c, (∀ s, Call.Takes s c → AtHand history s) → table.size ≤ (perform c.run table).2.size ∧
      ∀ e, (perform c.run table).1 = .error e → (perform c.run table).2 = table) ∧
    (∀ raw q, QualifiedName.parse raw = .ok q →
      perform (Call.lookup raw).run table = (.ok (.found (table.find? q.text)), table) ∧
      ((table.find? q.text).isSome = true ↔ Registered history q.text)) ∧
    (∀ raw q, QualifiedName.parse raw = .ok q → ∃ s after,
      perform (Call.ofText raw).run table = (.ok (.symbol s), after) ∧ after.find? q.text = some s) ∧
    ∀ context name q, QualifiedName.ofParts context name = .ok q → ∃ s after,
      perform (Call.ofParts context name).run table = (.ok (.symbol s), after) ∧ after.find? q.text = some s := by
  obtain ⟨sound, own, names⟩ := session.invariant
  refine ⟨?_, ?_, ?_, ⟨sound.distinct, names⟩, fun c given => session.size_le_of_call c given, ?_, ?_, ?_⟩
  · intro s t left right
    exact sound.isInstance_iff (own s left) (own t right)
  · intro n s found
    obtain ⟨i, q, _, rfl, rfl⟩ := sound.found found
    refine ⟨rfl, ?_⟩
    rw [QualifiedName.parse_text, Symbol.ofName_context, Symbol.ofName_shortName]
    rfl
  · have name : Symbol.root.qualifiedName = "System`Symbol" := by decide
    exact ⟨name ▸ sound.rootFirst, name ▸ sound.holds_root⟩
  · intro raw q read
    refine ⟨by rw [perform_lookup, read], ?_⟩
    rw [← names, ← SymbolTable.find?_isSome_iff, Option.isSome_iff_exists]
  · intro raw q read
    exact ⟨_, _, perform_ofText read table, (SymbolTable.intern_spec sound q).2.2⟩
  · intro context name q made
    exact ⟨_, _, perform_ofParts made table, (SymbolTable.intern_spec sound q).2.2⟩

/-- One name is registered in two ways and then looked up, another is refused, the atom heads are asked for, and a bare
name is lowered. -/
theorem names_identify_symbols_after_six_calls : ∃ history table, Session history table ∧ table.size = 9 ∧
    (∀ s t, AtHand history s → AtHand history t → (s.isInstance t = true ↔ s.qualifiedName = t.qualifiedName)) ∧
    (Registered history "Global`Private`x" ∧ Registered history "System`y" ∧ ¬ Registered history "a``b") ∧
    table.find? "System`Symbol" = some Symbol.root ∧
    ∃ s, perform (Call.lookup "System`y").run table = (.ok (.found (some s)), table) ∧ s.context = "System" ∧
      s.shortName = "y" := by
  have one := Session.start.call (.ofText "Global`Private`x") nofun
  have two := one.call (.ofParts "Global`Private" "x") nofun
  have three := two.call (.ofText "a``b") nofun
  have four := three.call (.head (.number (.integer 1))) (fun s takes => absurd takes Expr.mentions_number)
  have five := four.call (.lookup "Global`Private`x") nofun
  have six := five.call (.lower .default (.symbol none "y")) nofun
  obtain ⟨identify, under, ⟨_, root⟩, ⟨_, registered⟩, _, found, _⟩ := names_identify_symbols six
  have bare := (registered "System`y").mp (by decide +kernel)
  let q : QualifiedName := ⟨"System", "y", by decide⟩
  obtain ⟨run, known⟩ := found "System`y" q q.parse_text
  obtain ⟨s, stored⟩ := Option.isSome_iff_exists.mp (known.mpr bare)
  have parts := (under _ s stored).2
  rw [q.parse_text] at parts
  obtain ⟨context, name⟩ := Prod.mk.inj (Except.ok.inj parts)
  rw [stored] at run
  exact ⟨_, _, six, by decide +kernel, identify, ⟨(registered _).mp (by decide +kernel), bare,
    (registered _).not.mp (by decide +kernel)⟩, root, s, run, context.symm, name.symm⟩

end Session

end SymbolicKernel

import SymbolicKernel.Proofs.Session
import SymbolicKernel.Proofs.Symbol.Segments

namespace SymbolicKernel

open Interning

namespace QualifiedName

theorem join_join (outer inner name : String) : join outer (join inner name) = join (join outer inner) name := by
  rw [← String.toList_inj]
  simp [join_toList]

end QualifiedName

namespace Tree

/-- To lower a tree and to register a symbol by its two parts come to the same, done apart or one after the other in
either order: the symbol has just these parts, or both refuse the name by the same text and register nothing. -/
def InternsParts (resolver : Resolver) (table : SymbolTable) (t : Tree) (context name : String) : Prop :=
  (∃ s after, perform (t.lower resolver) table = (.ok (.symbol s), after) ∧
    perform (Symbol.ofParts context name) table = (.ok s, after) ∧ s.context = context ∧ s.shortName = name ∧
    perform (t.lower resolver) after = (.ok (.symbol s), after) ∧
    perform (Symbol.ofParts context name) after = (.ok s, after)) ∨
  perform (t.lower resolver) table =
    (.error (.expr (.name ⟨QualifiedName.join context name⟩)), table) ∧
  perform (Symbol.ofParts context name) table = (.error ⟨QualifiedName.join context name⟩, table)

/-- Lowering a name with its context reads the text in which the two are joined. -/
theorem lower_qualified_perform (resolver : Resolver) (table : SymbolTable) (context name : String) :
    perform ((symbol (some context) name).lower resolver) table =
      match QualifiedName.parse (QualifiedName.join context name) with
      | .ok q => (.ok (.symbol (table.intern q).1), (table.intern q).2)
      | .error e => (.error (.expr (.name e)), table) := by
  have resolved : ((symbol (some context) name).toDraft >>= Draft.resolve resolver) =
      Draft.parseName (QualifiedName.join context name) := rfl
  rw [lower_perform_resolve, resolved, Draft.parseName]
  cases QualifiedName.parse (QualifiedName.join context name) with
  | error e => rfl
  | ok q =>
    apply perform_map
    rw [perform_adapt, Symbol.ofParts_perform_self]
    rfl

theorem internsParts_of_notMem {table : SymbolTable} (sound : table.Sound) (resolver : Resolver) (context : String)
    {name : String} (unmarked : contextMark ∉ name.toList) :
    InternsParts resolver table (symbol (some context) name) context name := by
  rw [InternsParts]
  simp only [lower_qualified_perform, Symbol.ofParts_perform, QualifiedName.parse_join unmarked]
  by_cases wellFormed : QualifiedName.WellFormed context name
  · obtain ⟨q, made⟩ := QualifiedName.exists_ofParts_iff.mpr wellFormed
    obtain ⟨rfl, rfl⟩ := QualifiedName.ofParts_ok_iff.mp made
    -- The name may have been registered long before, but a sound table holds no symbol of other parts under it.
    obtain ⟨serial, own⟩ := SymbolTable.intern_eq_ofName sound q
    have again := SymbolTable.intern_of_find? (SymbolTable.intern_spec sound q).2.2
    refine .inl ⟨(table.intern q).1, (table.intern q).2, ?_⟩
    simp only [made, again, own, Symbol.ofName_context, Symbol.ofName_shortName, and_self]
  · rw [QualifiedName.ofParts_of_malformed wellFormed]
    exact .inr ⟨rfl, rfl⟩

/-- Marks in the name count for the context: the name that is read is what stands behind the last of them. -/
theorem lower_qualified_join (resolver : Resolver) (table : SymbolTable) (context inner name : String) :
    perform ((symbol (some context) (QualifiedName.join inner name)).lower resolver) table =
      perform ((symbol (some (QualifiedName.join context inner)) name).lower resolver) table := by
  rw [lower_qualified_perform, lower_qualified_perform, QualifiedName.join_join]

theorem internsParts_of_join {table : SymbolTable} (sound : table.Sound) (resolver : Resolver)
    (context inner : String) {name : String} (unmarked : contextMark ∉ name.toList) :
    InternsParts resolver table (symbol (some context) (QualifiedName.join inner name))
      (QualifiedName.join context inner) name := by
  have joined := internsParts_of_notMem sound resolver (QualifiedName.join context inner) unmarked
  simpa only [InternsParts, lower_qualified_join] using joined

end Tree

theorem Symbol.ofParts_of_marked (context : String) {name : String} (marked : contextMark ∈ name.toList)
    (table : SymbolTable) :
    perform (ofParts context name) table = (.error ⟨QualifiedName.join context name⟩, table) := by
  rw [ofParts_perform, QualifiedName.ofParts_of_malformed fun wellFormed => wellFormed.2.2.1 marked]

/-- To lower a name that is written with its context is to register the symbol of these two parts, with the same
outcome and the same table, unless the name holds a mark itself. The parts are refused then, but not the tree: it is
lowered to the symbol of the last segment of the name, whose context takes in the others. -/
theorem lowering_interns_parts {history : List Event} {table : SymbolTable} (session : Session history table)
    (resolver : Resolver) (context name : String) :
    (contextMark ∉ name.toList → (Tree.symbol (some context) name).InternsParts resolver table context name) ∧
      (contextMark ∈ name.toList → ∃ inner last, name = QualifiedName.join inner last ∧ contextMark ∉ last.toList ∧
        (Tree.symbol (some context) name).InternsParts resolver table (QualifiedName.join context inner) last ∧
        perform (Symbol.ofParts context name) table = (.error ⟨QualifiedName.join context name⟩, table)) := by
  have sound := session.invariant.1
  refine ⟨Tree.internsParts_of_notMem sound resolver context, fun marked => ?_⟩
  obtain ⟨inner, last, rfl, unmarked⟩ := QualifiedName.exists_join marked
  exact ⟨inner, last, rfl, unmarked, Tree.internsParts_of_join sound resolver context inner unmarked,
    Symbol.ofParts_of_marked context marked table⟩

/-- The mark may stand in the context or in the name: the two trees are lowered alike. -/
theorem lowering_interns_parts_of_nested_context :
    (contextMark ∉ "x".toList ∧
      (Tree.symbol (some "A`B") "x").InternsParts .default .fresh "A`B" "x") ∧
    contextMark ∈ "B`x".toList ∧ ∃ inner last, "B`x" = QualifiedName.join inner last ∧ contextMark ∉ last.toList ∧
      (Tree.symbol (some "A") "B`x").InternsParts .default .fresh (QualifiedName.join "A" inner) last ∧
      perform (Symbol.ofParts "A" "B`x") .fresh = (.error ⟨"A`B`x"⟩, .fresh) := by
  have unmarked : contextMark ∉ "x".toList := by decide
  have marked : contextMark ∈ "B`x".toList := by decide
  exact ⟨⟨unmarked, (lowering_interns_parts .start .default "A`B" "x").1 unmarked⟩, marked,
    (lowering_interns_parts .start .default "A" "B`x").2 marked⟩

/-- Where the name holds a mark, the tree is lowered although its two parts are refused, and to a symbol of other
parts. -/
theorem name_with_mark_refused_in_parts_only :
    (∃ s after, perform ((Tree.symbol (some "A") "B`x").lower .default) .fresh = (.ok (.symbol s), after) ∧
      s.context = "A`B" ∧ s.shortName = "x") ∧
    perform (Symbol.ofParts "A" "B`x") .fresh = (.error ⟨"A`B`x"⟩, .fresh) :=
  ⟨⟨Symbol.ofName 1 ⟨"A`B", "x", by decide⟩, _, rfl, Symbol.ofName_context _ _, Symbol.ofName_shortName _ _⟩, rfl⟩

end SymbolicKernel

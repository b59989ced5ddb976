import Mathlib.Data.List.Nodup
import SymbolicKernel.Proofs.Symbol.Name

namespace SymbolicKernel.SymbolTable

/-- The qualified names that symbols are registered under, in the order of registration. -/
def names (table : SymbolTable) : List String := table.entries.map Prod.fst

/-- What holds of a table whatever was registered in it: the root comes first, the symbol at each place knows its
place and its name and stands under that name, and no name occurs twice. -/
structure Sound (table : SymbolTable) : Prop where
  rootFirst : table.entries.head? = some (Symbol.root.qualifiedName, Symbol.root)
  placed : ∀ i n s, table.entries[i]? = some (n, s) → ∃ q : QualifiedName, n = q.text ∧ s = Symbol.ofName i q
  distinct : table.names.Nodup

/-- One table continues another: all entries keep their places, and exactly the given names are present besides
those that were. -/
structure Extends (before after : SymbolTable) (added : QualifiedName → Prop) : Prop where
  kept : before.entries <+: after.entries
  names : ∀ n, n ∈ after.names ↔ n ∈ before.names ∨ ∃ q, added q ∧ q.text = n

/-- A symbol is the one registered under its own name. -/
def Holds (table : SymbolTable) (s : Symbol) : Prop :=
  table.find? s.qualifiedName = some s

theorem find?_eq_none_iff {table : SymbolTable} {n : String} : table.find? n = none ↔ n ∉ table.names := by
  simp only [find?, names, List.lookup_eq_none_iff, List.mem_map, not_exists, not_and]
  constructor
  · intro absent entry member same
    have differs := absent entry member
    simp [same] at differs
  · intro absent entry member
    have differs := absent entry member
    simpa using Ne.symm differs

theorem find?_isSome_iff {table : SymbolTable} {n : String} : (∃ s, table.find? n = some s) ↔ n ∈ table.names := by
  rw [← Option.isSome_iff_exists, ← not_iff_not, Option.not_isSome_iff_eq_none, find?_eq_none_iff]

theorem mem_of_find? {table : SymbolTable} {n : String} {s : Symbol} (found : table.find? n = some s) :
    (n, s) ∈ table.entries := by
  obtain ⟨before, after, entries, _⟩ := List.lookup_eq_some_iff.mp found
  simp [entries]

namespace Extends

theorem refl (table : SymbolTable) : table.Extends table fun _ => False :=
  ⟨List.prefix_rfl, by simp⟩

theorem trans {a b c : SymbolTable} {p q : QualifiedName → Prop} (first : a.Extends b p) (second : b.Extends c q) :
    a.Extends c fun n => p n ∨ q n := by
  refine ⟨first.kept.trans second.kept, fun n => ?_⟩
  rw [second.names, first.names]
  simp only [or_and_right, exists_or, or_assoc]

theorem congr {a b : SymbolTable} {p q : QualifiedName → Prop} (extend : a.Extends b p) (same : ∀ n, p n ↔ q n) :
    a.Extends b q := by
  refine ⟨extend.kept, fun n => ?_⟩
  simp only [extend.names, same]

/-- What was found once is found ever after: no entry is replaced. -/
theorem find? {before after : SymbolTable} {added : QualifiedName → Prop} {n : String} {s : Symbol}
    (extend : before.Extends after added) (found : before.find? n = some s) : after.find? n = some s := by
  obtain ⟨rest, entries⟩ := extend.kept
  rw [SymbolTable.find?, ← entries, List.lookup_append]
  simp only [SymbolTable.find?] at found
  simp [found]

theorem holds {before after : SymbolTable} {added : QualifiedName → Prop} {s : Symbol}
    (extend : before.Extends after added) (held : before.Holds s) : after.Holds s :=
  extend.find? held

theorem size_le {before after : SymbolTable} {added : QualifiedName → Prop}
    (extend : before.Extends after added) : before.size ≤ after.size :=
  extend.kept.length_le

end Extends

namespace Sound

theorem fresh : SymbolTable.fresh.Sound where
  rootFirst := rfl
  placed := by
    intro i n s atPlace
    obtain ⟨rfl, same⟩ : i = 0 ∧ (Symbol.root.qualifiedName, Symbol.root) = (n, s) := by
      simpa [SymbolTable.fresh, List.getElem?_singleton] using atPlace
    cases same
    exact ⟨_, rfl, rfl⟩
  distinct := by simp [names, SymbolTable.fresh]

/-- The symbol found under a name was made from that very name. -/
theorem found {table : SymbolTable} {n : String} {s : Symbol} (sound : table.Sound)
    (found : table.find? n = some s) :
    ∃ i q, table.entries[i]? = some (n, s) ∧ n = q.text ∧ s = Symbol.ofName i q := by
  obtain ⟨i, atPlace⟩ := List.mem_iff_getElem?.mp (mem_of_find? found)
  obtain ⟨q, name, symbol⟩ := sound.placed i n s atPlace
  exact ⟨i, q, atPlace, name, symbol⟩

theorem qualifiedName_of_find? {table : SymbolTable} {n : String} {s : Symbol} (sound : table.Sound)
    (found : table.find? n = some s) : s.qualifiedName = n := by
  obtain ⟨i, q, _, rfl, rfl⟩ := sound.found found
  rfl

theorem holds_of_find? {table : SymbolTable} {n : String} {s : Symbol} (sound : table.Sound)
    (found : table.find? n = some s) : table.Holds s := by
  rw [Holds, sound.qualifiedName_of_find? found, found]

theorem holds_root {table : SymbolTable} (sound : table.Sound) : table.Holds Symbol.root := by
  obtain ⟨rest, entries⟩ := List.head?_eq_some_iff.mp sound.rootFirst
  simp [Holds, find?, entries]

/-- Of the symbols of one table, the place tells the name and the name tells the place. -/
theorem isInstance_iff {table : SymbolTable} {s t : Symbol} (sound : table.Sound) (left : table.Holds s)
    (right : table.Holds t) : s.isInstance t = true ↔ s.qualifiedName = t.qualifiedName := by
  obtain ⟨i, p, atLeft, _, madeLeft⟩ := sound.found left
  obtain ⟨j, q, atRight, _, madeRight⟩ := sound.found right
  have serialLeft : s.serial = i := by rw [madeLeft, Symbol.ofName_serial]
  have serialRight : t.serial = j := by rw [madeRight, Symbol.ofName_serial]
  rw [Symbol.isInstance, beq_iff_eq, serialLeft, serialRight]
  constructor
  · rintro rfl
    exact congrArg Prod.fst (Option.some.inj (atLeft.symm.trans atRight))
  · intro same
    rw [Holds, same] at left
    have one : s = t := Option.some.inj (left.symm.trans right)
    rw [← serialLeft, ← serialRight, one]

end Sound

/-- Registering a name answers the symbol of that name. Nothing else is touched, and a name that is present
already leaves the table as it is. -/
theorem intern_spec {table : SymbolTable} (sound : table.Sound) (q : QualifiedName) :
    (table.intern q).2.Sound ∧ table.Extends (table.intern q).2 (· = q) ∧
      (table.intern q).2.find? q.text = some (table.intern q).1 := by
  unfold intern
  cases known : table.find? q.text with
  | some s =>
    have present : q.text ∈ table.names := find?_isSome_iff.mp ⟨s, known⟩
    refine ⟨sound, ⟨List.prefix_rfl, fun n => ?_⟩, known⟩
    constructor
    · exact Or.inl
    · rintro (old | ⟨_, rfl, rfl⟩)
      · exact old
      · exact present
  | none =>
    have absent : q.text ∉ table.names := find?_eq_none_iff.mp known
    refine ⟨⟨?_, ?_, ?_⟩, ⟨List.prefix_append _ _, fun n => ?_⟩, ?_⟩
    · simp [List.head?_append, sound.rootFirst]
    · intro i n s atPlace
      rw [List.getElem?_append] at atPlace
      split at atPlace
      · exact sound.placed i n s atPlace
      · rename_i past
        obtain ⟨last, same⟩ : i - table.entries.length = 0 ∧ (q.text, Symbol.ofName table.size q) = (n, s) := by
          simpa [List.getElem?_singleton] using atPlace
        cases same
        have place : i = table.size := by rw [size]; omega
        exact ⟨q, rfl, by rw [place]⟩
    · have shape : SymbolTable.names ⟨table.entries ++ [(q.text, Symbol.ofName table.size q)]⟩ =
          table.names ++ [q.text] := by simp [names]
      rw [shape, List.nodup_append]
      refine ⟨sound.distinct, List.nodup_singleton _, ?_⟩
      intro n old m new same
      rw [List.mem_singleton] at new
      exact absent (by rw [← new, ← same]; exact old)
    · simp [names, eq_comm]
    · rw [SymbolTable.find?] at known
      simp [SymbolTable.find?, List.lookup_append, known]

theorem intern_of_find? {table : SymbolTable} {q : QualifiedName} {s : Symbol} (found : table.find? q.text = some s) :
    table.intern q = (s, table) := by
  rw [intern, found]

/-- A name is one symbol but for its place, whatever table it is taken from. -/
theorem intern_eq_ofName {table : SymbolTable} (sound : table.Sound) (q : QualifiedName) :
    ∃ serial, (table.intern q).1 = Symbol.ofName serial q := by
  obtain ⟨keeps, _, found⟩ := intern_spec sound q
  obtain ⟨i, p, _, name, made⟩ := keeps.found found
  obtain rfl := QualifiedName.text_injective name
  exact ⟨i, made⟩

end SymbolicKernel.SymbolTable

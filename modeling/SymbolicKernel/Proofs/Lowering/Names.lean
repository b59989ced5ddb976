import SymbolicKernel.Proofs.Literal.Classification
import SymbolicKernel.Proofs.Symbol.Name
import SymbolicKernel.Resolved

namespace SymbolicKernel

/-- A symbol stands somewhere in an expression. -/
inductive Expr.Mentions (s : Symbol) : Expr → Prop
  | symbol : Mentions s (.symbol s)
  | head {head : Expr} {leaves : List Expr} : Mentions s head → Mentions s (.compound head leaves)
  | leaf {head e : Expr} {leaves : List Expr} :
      e ∈ leaves → Mentions s e → Mentions s (.compound head leaves)

/-- A name stands somewhere in a resolved expression. -/
inductive Resolved.Names (q : QualifiedName) : Resolved → Prop
  | symbol : Names q (.symbol q)
  | head {head : Resolved} {children : List Resolved} : Names q head → Names q (.expression head children)
  | child {head r : Resolved} {children : List Resolved} :
      r ∈ children → Names q r → Names q (.expression head children)

/-- A name is the reading of a symbol somewhere in a draft: of its text, or of what the resolver answers for it. -/
inductive Draft.Names (resolver : Resolver) (q : QualifiedName) : Draft → Prop
  | symbol {text : String} : QualifiedName.parse text = .ok q → Names resolver q (.symbol text)
  | lookup {name text : String} :
      resolver name = some text → QualifiedName.parse text = .ok q → Names resolver q (.lookup name)
  | head {head : Draft} {children : List Draft} :
      Names resolver q head → Names resolver q (.expression head children)
  | child {head d : Draft} {children : List Draft} :
      d ∈ children → Names resolver q d → Names resolver q (.expression head children)

/-- A name is the reading of a symbol somewhere in a syntax tree. -/
inductive Tree.Names (resolver : Resolver) (q : QualifiedName) : Tree → Prop
  | qualified {context name : String} :
      QualifiedName.parse (QualifiedName.join context name) = .ok q → Names resolver q (.symbol (some context) name)
  | bare {name text : String} :
      resolver name = some text → QualifiedName.parse text = .ok q → Names resolver q (.symbol none name)
  | head {head : Tree} {children : List Tree} : Names resolver q head → Names resolver q (.node head children)
  | child {head t : Tree} {children : List Tree} :
      t ∈ children → Names resolver q t → Names resolver q (.node head children)

namespace Expr

@[simp] theorem mentions_symbol {s t : Symbol} : (symbol t).Mentions s ↔ s = t :=
  ⟨fun | .symbol => rfl, fun same => same ▸ .symbol⟩

@[simp] theorem mentions_number {s : Symbol} {n : Number} : ¬ (number n).Mentions s := nofun

@[simp] theorem mentions_string {s : Symbol} {text : String} : ¬ (string text).Mentions s := nofun

@[simp] theorem mentions_compound {s : Symbol} {head : Expr} {leaves : List Expr} :
    (compound head leaves).Mentions s ↔ head.Mentions s ∨ ∃ e ∈ leaves, e.Mentions s :=
  ⟨fun | .head inside => .inl inside | .leaf member inside => .inr ⟨_, member, inside⟩,
    fun | .inl inside => .head inside | .inr ⟨_, member, inside⟩ => .leaf member inside⟩

end Expr

namespace Resolved

@[simp] theorem names_symbol {p q : QualifiedName} : (symbol q).Names p ↔ p = q :=
  ⟨fun | .symbol => rfl, fun same => same ▸ .symbol⟩

@[simp] theorem names_number {q : QualifiedName} {n : Number} : ¬ (number n).Names q := nofun

@[simp] theorem names_string {q : QualifiedName} {text : String} : ¬ (string text).Names q := nofun

@[simp] theorem names_expression {q : QualifiedName} {head : Resolved} {children : List Resolved} :
    (expression head children).Names q ↔ head.Names q ∨ ∃ r ∈ children, r.Names q :=
  ⟨fun | .head inside => .inl inside | .child member inside => .inr ⟨_, member, inside⟩,
    fun | .inl inside => .head inside | .inr ⟨_, member, inside⟩ => .child member inside⟩

end Resolved

namespace Draft
variable {resolver : Resolver} {q : QualifiedName}

@[simp] theorem names_symbol {text : String} :
    (symbol text).Names resolver q ↔ QualifiedName.parse text = .ok q :=
  ⟨fun | .symbol read => read, .symbol⟩

@[simp] theorem names_lookup {name : String} :
    (lookup name).Names resolver q ↔ ∃ text, resolver name = some text ∧ QualifiedName.parse text = .ok q :=
  ⟨fun | .lookup answer read => ⟨_, answer, read⟩, fun ⟨_, answer, read⟩ => .lookup answer read⟩

@[simp] theorem names_expression {head : Draft} {children : List Draft} :
    (expression head children).Names resolver q ↔ head.Names resolver q ∨ ∃ d ∈ children, d.Names resolver q :=
  ⟨fun | .head inside => .inl inside | .child member inside => .inr ⟨_, member, inside⟩,
    fun | .inl inside => .head inside | .inr ⟨_, member, inside⟩ => .child member inside⟩

end Draft

namespace Draft

theorem parseName_ok_iff {text : String} {r : Resolved} :
    parseName text = .ok r ↔ ∃ p, QualifiedName.parse text = .ok p ∧ .symbol p = r := by
  rw [parseName, Except.mapError_ok_iff, Except.map_ok_iff]

theorem buildReal_ok_iff {x : Except NumberError RealNumber} {r : Resolved} :
    buildReal x = .ok r ↔ ∃ y, x = .ok y ∧ .number (.real y) = r := by
  rw [buildReal, Except.mapError_ok_iff, Except.map_ok_iff]

mutual

/-- Resolving neither drops nor invents a name. -/
theorem resolve_names {resolver : Resolver} {q : QualifiedName} :
    (d : Draft) → {r : Resolved} → d.resolve resolver = .ok r → (r.Names q ↔ d.Names resolver q)
  | symbol text, r, made => by
    rw [resolve] at made
    obtain ⟨p, read, rfl⟩ := parseName_ok_iff.mp made
    simp [read, eq_comm]
  | lookup name, r, made => by
    rw [resolve] at made
    split at made
    · rename_i text answer
      obtain ⟨p, read, rfl⟩ := parseName_ok_iff.mp made
      simp [answer, read, eq_comm]
    · cases made
  | string text, r, made => by
    cases made
    exact iff_of_false nofun nofun
  | integer n, r, made => by
    cases made
    exact iff_of_false nofun nofun
  | rational p q, r, made => by
    obtain ⟨y, _, rfl⟩ := buildReal_ok_iff.mp made
    exact iff_of_false nofun nofun
  | machine x, r, made => by
    obtain ⟨y, _, rfl⟩ := buildReal_ok_iff.mp made
    exact iff_of_false nofun nofun
  | precise source digits, r, made => by
    obtain ⟨y, _, rfl⟩ := buildReal_ok_iff.mp made
    exact iff_of_false nofun nofun
  | expression head children, r, made => by
    rw [resolve] at made
    obtain ⟨h, headMade, made⟩ := Except.bind_ok_iff.mp made
    obtain ⟨cs, childrenMade, made⟩ := Except.bind_ok_iff.mp made
    cases made
    rw [Resolved.names_expression, names_expression, resolve_names head headMade,
      resolveAll_names children childrenMade]

theorem resolveAll_names {resolver : Resolver} {q : QualifiedName} :
    (ds : List Draft) → {rs : List Resolved} → resolveAll resolver ds = .ok rs →
      ((∃ r ∈ rs, r.Names q) ↔ ∃ d ∈ ds, d.Names resolver q)
  | [], rs, made => by
    cases made
    simp
  | d :: ds, rs, made => by
    rw [resolveAll] at made
    obtain ⟨r, firstMade, made⟩ := Except.bind_ok_iff.mp made
    obtain ⟨rest, restMade, made⟩ := Except.bind_ok_iff.mp made
    cases made
    simp only [List.exists_mem_cons_iff]
    rw [resolve_names d firstMade, resolveAll_names ds restMade]

end

end Draft

/-- Whatever a literal becomes, it is no symbol. -/
theorem Literal.toDraft_names {l : Literal} {resolver : Resolver} {q : QualifiedName} {d : Draft}
    (made : l.toDraft = .ok d) : ¬ d.Names resolver q := by
  obtain ⟨_, classified⟩ := toDraft_classified made
  cases classified <;> exact nofun

namespace Tree
variable {resolver : Resolver} {q : QualifiedName}

theorem names_bare {name : String} :
    (symbol none name).Names resolver q ↔ ∃ text, resolver name = some text ∧ QualifiedName.parse text = .ok q :=
  ⟨fun | .bare answer read => ⟨_, answer, read⟩, fun ⟨_, answer, read⟩ => .bare answer read⟩

theorem names_qualified {context name : String} :
    (symbol (some context) name).Names resolver q ↔
      QualifiedName.parse (QualifiedName.join context name) = .ok q :=
  ⟨fun | .qualified read => read, .qualified⟩

theorem names_node {head : Tree} {children : List Tree} :
    (node head children).Names resolver q ↔ head.Names resolver q ∨ ∃ t ∈ children, t.Names resolver q :=
  ⟨fun | .head inside => .inl inside | .child member inside => .inr ⟨_, member, inside⟩,
    fun | .inl inside => .head inside | .inr ⟨_, member, inside⟩ => .child member inside⟩

mutual

/-- The draft of a tree names what the tree names: literals are decoded to numbers and texts only. -/
theorem toDraft_names : (t : Tree) → {d : Draft} → t.toDraft = .ok d → (d.Names resolver q ↔ t.Names resolver q)
  | symbol (some context) name, d, made => by
    cases made
    rw [Draft.names_symbol, names_qualified]
  | symbol none name, d, made => by
    cases made
    rw [Draft.names_lookup, names_bare]
  | string raw, d, made => by
    cases made
    exact iff_of_false nofun nofun
  | filename raw, d, made => by
    cases made
    exact iff_of_false nofun nofun
  | number l, d, made => iff_of_false (Literal.toDraft_names made) nofun
  | node head children, d, made => by
    rw [toDraft] at made
    obtain ⟨h, headMade, made⟩ := Except.bind_ok_iff.mp made
    obtain ⟨cs, childrenMade, made⟩ := Except.bind_ok_iff.mp made
    cases made
    rw [Draft.names_expression, names_node, toDraft_names head headMade, toDrafts_names children childrenMade]

theorem toDrafts_names : (ts : List Tree) → {ds : List Draft} → toDrafts ts = .ok ds →
    ((∃ d ∈ ds, d.Names resolver q) ↔ ∃ t ∈ ts, t.Names resolver q)
  | [], ds, made => by
    cases made
    simp
  | t :: ts, ds, made => by
    rw [toDrafts] at made
    obtain ⟨d, firstMade, made⟩ := Except.bind_ok_iff.mp made
    obtain ⟨rest, restMade, made⟩ := Except.bind_ok_iff.mp made
    cases made
    simp only [List.exists_mem_cons_iff]
    rw [toDraft_names t firstMade, toDrafts_names ts restMade]

end

end Tree

end SymbolicKernel

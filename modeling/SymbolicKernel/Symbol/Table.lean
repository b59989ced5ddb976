import SymbolicKernel.Symbol.QualifiedName

/-!
Symbols and the table they are registered in. A table holds one symbol for each qualified name that was ever
registered, so two symbols of one table are the same instance exactly when their names are equal.
-/
namespace SymbolicKernel

/-- A registered symbol: its place in the order of registration, by which instances are told apart, its qualified
name, and the byte of this name at which the short name begins. -/
structure Symbol where
  serial : Nat
  qualifiedName : String
  shortStart : Nat
  deriving DecidableEq

namespace Symbol

/-- The symbol of a name at a place in the order of registration. The short name begins behind the mark. -/
def ofName (serial : Nat) (name : QualifiedName) : Symbol :=
  ⟨serial, name.text, name.context.utf8ByteSize + 1⟩

/-- The head of every symbol, itself included. It is the first one in every table. -/
def root : Symbol := ofName 0 ⟨systemContext, "Symbol", by decide⟩

/-- What stands in front of the mark before the short name. -/
def context (s : Symbol) : String :=
  String.Pos.Raw.extract s.qualifiedName 0 ⟨s.shortStart - 1⟩

def shortName (s : Symbol) : String :=
  String.Pos.Raw.extract s.qualifiedName ⟨s.shortStart⟩ s.qualifiedName.rawEndPos

def isInstance (a b : Symbol) : Bool := a.serial == b.serial

def isRoot (s : Symbol) : Bool := s.isInstance root

/-- Symbols are shown by their short names. -/
def text (s : Symbol) : String := s.shortName

def inspect (s : Symbol) : String := "Symbol(" ++ s.qualifiedName ++ ")"

end Symbol

/-- The symbols registered so far in the order of their registration, each under its qualified name. -/
structure SymbolTable where
  entries : List (String × Symbol)
  deriving DecidableEq

namespace SymbolTable

def fresh : SymbolTable := ⟨[(Symbol.root.qualifiedName, Symbol.root)]⟩

def size (table : SymbolTable) : Nat := table.entries.length

def find? (table : SymbolTable) (qualified : String) : Option Symbol :=
  table.entries.lookup qualified

/-- The symbol of a name, registered if it was not yet. -/
def intern (name : QualifiedName) (table : SymbolTable) : Symbol × SymbolTable :=
  match table.find? name.text with
  | some symbol => (symbol, table)
  | none =>
    let symbol := Symbol.ofName table.size name
    (symbol, ⟨table.entries ++ [(name.text, symbol)]⟩)

/-- The symbol registered under the name that a text denotes, if there is one. -/
def lookup (table : SymbolTable) (raw : String) : Except MalformedName (Option Symbol) :=
  (QualifiedName.parse raw).map fun name => table.find? name.text

end SymbolTable

/-- A calculation that may register symbols. -/
abbrev Interning := StateM SymbolTable

namespace Symbol

def intern (name : QualifiedName) : Interning Symbol :=
  fun table => table.intern name

/-- The symbol of the name that a text denotes. A malformed name registers nothing. -/
def ofText (raw : String) : ExceptT MalformedName Interning Symbol := do
  let name ← QualifiedName.parse raw
  intern name

/-- The symbol of a context and a short name. Malformed parts register nothing. -/
def ofParts (context name : String) : ExceptT MalformedName Interning Symbol := do
  let name ← QualifiedName.ofParts context name
  intern name

end Symbol

end SymbolicKernel

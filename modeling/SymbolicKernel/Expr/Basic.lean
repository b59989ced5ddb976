import SymbolicKernel.Number.Basic
import SymbolicKernel.Symbol.Table

/-!
Expressions: atoms, which are symbols, numbers and texts, and compounds of a head and a row of leaves.
-/
namespace SymbolicKernel

inductive Expr where
  | symbol (s : Symbol)
  | number (n : Number)
  | string (text : String)
  | compound (head : Expr) (leaves : List Expr)

/-- Why an expression could not be built or a query on it could not be answered. -/
inductive ExprError where
  | name (e : MalformedName)
  | number (e : NumberError)
  deriving DecidableEq

def ExprError.message : ExprError → String
  | name e => e.message
  | number e => e.message

namespace Expr

def integer (n : Int) : Expr := number (.integer n)

def kind : Expr → Kind
  | symbol _ => .symbol
  | number n => n.kind
  | string _ => .string
  | compound _ _ => .expression

def isAtom : Expr → Bool
  | compound _ _ => false
  | _ => true

def isSymbol : Expr → Bool
  | symbol _ => true
  | _ => false

def isNumber : Expr → Bool
  | number _ => true
  | _ => false

def isString : Expr → Bool
  | string _ => true
  | _ => false

def symbol? : Expr → Option Symbol
  | symbol s => some s
  | _ => none

def number? : Expr → Option Number
  | number n => some n
  | _ => none

def string? : Expr → Option String
  | string text => some text
  | _ => none

/-- The leaves of a compound; an atom has none. -/
def leaves : Expr → List Expr
  | compound _ leaves => leaves
  | _ => []

def ofSymbolName (raw : String) : ExceptT ExprError Interning Expr :=
  symbol <$> (Symbol.ofText raw).adapt .name

/-- The kinds of atom whose heads are registered, in this order. -/
def atomKinds : List Kind :=
  [.integer, .rational, .machineReal, .precisionReal, .complex, .string]

/-- A name in the system context that is the name of a kind. -/
def kindName (k : Kind) : QualifiedName :=
  ⟨systemContext, k.name, by cases k <;> decide⟩

/-- Registers the heads of all kinds of atom. Doing it again changes nothing. -/
def internAtomHeads : Interning Unit :=
  atomKinds.forM fun k => do let _ ← Symbol.intern (kindName k)

/-- The head: that of a compound is a part of it, that of a symbol the root, and that of any other atom the
symbol named like its kind. The first call on any expression registers the heads of all atoms. -/
def head (e : Expr) : Interning Expr := do
  internAtomHeads
  match e with
  | compound head _ => return head
  | symbol _ => return symbol Symbol.root
  | e => return symbol (← Symbol.intern (kindName e.kind))

/-- The number an expression is; anything else does not support the operation. -/
def toNumber (operation : Operation) (e : Expr) : Except ExprError Number :=
  match e with
  | number n => .ok n
  | _ => .error (.number (.unsupported operation e.kind))

def precision (e : Expr) : Except ExprError Nat := do
  let n ← e.toNumber .precision
  n.precision.mapError .number

/-- A number to a number of decimal digits, or as a machine number if none is given. -/
def coerce (digits : Option Nat) (e : Expr) : Except ExprError Expr := do
  let n ← e.toNumber .coerce
  ((n.coerce digits).map number).mapError .number

def toPart (e : Expr) : Except ExprError Number :=
  match e with
  | number n => .ok n
  | _ => .error (.number (.invalidComponent e.kind))

/-- The complex number of two expressions, which must be real numbers. -/
def complex (re im : Expr) : Except ExprError Expr := do
  let re ← re.toPart
  let im ← im.toPart
  ((Number.ofParts re im).map number).mapError .number

end Expr

end SymbolicKernel

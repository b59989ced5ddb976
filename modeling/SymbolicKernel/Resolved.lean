import SymbolicKernel.Draft.OfTree

/-!
Expressions of which everything is known but the instances of their symbols. All failures of lowering happen
before this stage: the names are checked once more when they are registered, but they have passed that check
already, so a tree that is refused leaves the table of symbols as it was.
-/
namespace SymbolicKernel

/-- Finds the qualified name of a bare one. -/
abbrev Resolver := String → Option String

/-- The resolver that takes every name from one context. -/
def Resolver.inContext (context : String) : Resolver :=
  fun name => (qualify name context).toOption

def Resolver.default : Resolver := Resolver.inContext systemContext

inductive Resolved where
  | symbol (name : QualifiedName)
  | number (n : Number)
  | string (text : String)
  | expression (head : Resolved) (children : List Resolved)

namespace Draft

def parseName (qualified : String) : Except LowerError Resolved :=
  ((QualifiedName.parse qualified).map .symbol).mapError fun e => .expr (.name e)

def buildReal (x : Except NumberError RealNumber) : Except LowerError Resolved :=
  (x.map fun x => .number (.real x)).mapError .number

def buildPrecise (source : PreciseSource) (digits : Nat) : Except NumberError PrecisionReal :=
  match source with
  | .text text => PrecisionReal.ofText text digits
  | .ratio p q => (Rational.ofFraction p q).map fun x => PrecisionReal.ofRat x digits

mutual

/-- Looks up all names and builds all numbers, heads before children and children from left to right. -/
def resolve (resolver : Resolver) : Draft → Except LowerError Resolved
  | symbol qualified => parseName qualified
  | lookup name =>
    match resolver name with
    | some qualified => parseName qualified
    | none => .error (.unresolved name)
  | string text => .ok (.string text)
  | integer n => .ok (.number (.integer n))
  | rational p q => buildReal ((Rational.ofFraction p q).map .rational)
  | machine x => buildReal ((MachineReal.ofDouble x).map .machine)
  | precise source digits => buildReal ((buildPrecise source (Precision.digitsOfDouble digits)).map .precise)
  | expression head children => do
    let head ← resolve resolver head
    let children ← resolveAll resolver children
    return .expression head children

def resolveAll (resolver : Resolver) : List Draft → Except LowerError (List Resolved)
  | [] => .ok []
  | d :: ds => do
    let d ← resolve resolver d
    let ds ← resolveAll resolver ds
    return d :: ds

end

end Draft

namespace Resolved

mutual

/-- The expression, its symbols registered from left to right. -/
def toExpr : Resolved → ExceptT LowerError Interning Expr
  | symbol name => Expr.symbol <$> (Symbol.ofParts name.context name.name).adapt fun e => .expr (.name e)
  | number n => pure (.number n)
  | string text => pure (.string text)
  | expression head children => do
    let head ← toExpr head
    let children ← toExprs children
    return .compound head children

def toExprs : List Resolved → ExceptT LowerError Interning (List Expr)
  | [] => pure []
  | r :: rs => do
    let r ← toExpr r
    let rs ← toExprs rs
    return r :: rs

end

end Resolved

def Draft.toExpr (resolver : Resolver) (d : Draft) : ExceptT LowerError Interning Expr := do
  let resolved ← d.resolve resolver
  resolved.toExpr

def Tree.lower (resolver : Resolver) (t : Tree) : ExceptT LowerError Interning Expr := do
  let draft ← t.toDraft
  draft.toExpr resolver

end SymbolicKernel

import SymbolicKernel.Expr.Basic

/-!
Drafts of expressions: all literals are decoded and classified, but no name has been looked up, no inexact number
been built, and no symbol been registered.
-/
namespace SymbolicKernel

/-- Where the value of a real of high precision comes from. -/
inductive PreciseSource where
  | text (text : String)
  | ratio (p q : Int)
  deriving DecidableEq

inductive Draft where
  /-- A symbol under its qualified name. -/
  | symbol (qualified : String)
  /-- A symbol whose name is yet to be resolved. -/
  | lookup (name : String)
  | string (text : String)
  | integer (n : Int)
  /-- A quotient as it was written, not in lowest terms. -/
  | rational (p q : Int)
  | machine (x : Double)
  /-- A real to a number of decimal digits, which is itself a real number. -/
  | precise (source : PreciseSource) (digits : Double)
  | expression (head : Draft) (children : List Draft)

/-- Why a syntax tree could not be lowered to an expression. -/
inductive LowerError where
  | unresolved (name : String)
  | malformedNumber (literal : String)
  | expr (e : ExprError)
  | number (e : NumberError)
  deriving DecidableEq

def LowerError.message : LowerError → String
  | unresolved name => "cannot resolve symbol " ++ Text.quoted name
  | malformedNumber literal => "malformed number literal: " ++ literal
  | expr e => e.message
  | number e => e.message

end SymbolicKernel

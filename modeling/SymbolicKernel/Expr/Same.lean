import SymbolicKernel.Expr.Basic

/-!
Structural identity of expressions. Only machine reals and reals of higher precision are compared across
kinds, by their exact values.
-/
namespace SymbolicKernel.Expr

mutual

/-- Whether two expressions are the same: symbols of one name, equal texts, the same numbers, and compounds
whose heads and leaves are the same one by one. -/
def same : Expr → Expr → Bool
  | symbol a, symbol b => a.isInstance b || a.qualifiedName == b.qualifiedName
  | compound a as, compound b bs => same a b && sameAll as bs
  | string a, string b => a == b
  | number a, number b => a.same b
  | _, _ => false

/-- Whether two rows of expressions have one length and the same members. -/
def sameAll : List Expr → List Expr → Bool
  | [], [] => true
  | a :: as, b :: bs => same a b && sameAll as bs
  | _, _ => false

end

end SymbolicKernel.Expr

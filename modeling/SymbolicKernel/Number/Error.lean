import SymbolicKernel.Kind

/-!
Why a number could not be built or a query on it could not be answered.
-/
namespace SymbolicKernel

inductive NumberError where
  /-- A machine real would not be finite. -/
  | overflow
  /-- A complex number would have a part that is not a real number. -/
  | invalidComponent (kind : Kind)
  | unsupported (operation : Operation) (kind : Kind)
  | zeroDenominator
  | malformedLiteral (text : String)
  deriving DecidableEq

def NumberError.message : NumberError → String
  | overflow => "machine real overflow: value is not finite"
  | invalidComponent kind => "invalid complex component: expected a real number, got " ++ kind.name
  | unsupported operation kind => operation.name ++ " is not supported for " ++ kind.name
  | zeroDenominator => "rational with zero denominator"
  | malformedLiteral text => "malformed numeric literal: " ++ text

end SymbolicKernel

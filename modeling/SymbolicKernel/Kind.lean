/-!
The kinds of value, and the operations that only some kinds support, with the names they have in messages.
-/
namespace SymbolicKernel

inductive Kind where
  | integer
  | rational
  | machineReal
  | precisionReal
  | complex
  | symbol
  | string
  | expression
  deriving DecidableEq

def Kind.name : Kind → String
  | integer => "Integer"
  | rational => "Rational"
  | machineReal => "MachineReal"
  | precisionReal => "PrecisionReal"
  | complex => "Complex"
  | symbol => "Symbol"
  | string => "String"
  | expression => "Expression"

/-- The queries that apply to numbers only. -/
inductive Operation where
  | precision
  | coerce
  deriving DecidableEq

def Operation.name : Operation → String
  | precision => "precision"
  | coerce => "coerce"

end SymbolicKernel

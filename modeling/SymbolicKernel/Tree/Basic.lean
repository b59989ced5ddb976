import SymbolicKernel.Tree.Literal

/-!
Syntax trees as a reader of source text hands them over, with every literal still as it was written.
-/
namespace SymbolicKernel

inductive Tree where
  | symbol (context : Option String) (name : String)
  | string (raw : String)
  | filename (raw : String)
  | number (l : Literal)
  | node (head : Tree) (children : List Tree)

end SymbolicKernel

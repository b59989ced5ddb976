import SymbolicKernel.Draft.Numeric
import SymbolicKernel.Text.Escaped
import SymbolicKernel.Tree.Basic

/-!
The draft of a syntax tree: heads before children and children from left to right, so the first literal that is
refused in this order decides the error.
-/
namespace SymbolicKernel.Tree

mutual

def toDraft : Tree → Except LowerError Draft
  | symbol (some context) name => .ok (.symbol (QualifiedName.join context name))
  | symbol none name => .ok (.lookup name)
  | string raw => .ok (.string (Text.decodeString raw))
  | filename raw => .ok (.string (Text.decodeFilename raw))
  | number l => l.toDraft
  | node head children => do
    let head ← toDraft head
    let children ← toDrafts children
    return .expression head children

def toDrafts : List Tree → Except LowerError (List Draft)
  | [] => .ok []
  | t :: ts => do
    let t ← toDraft t
    let ts ← toDrafts ts
    return t :: ts

end

end SymbolicKernel.Tree

import SymbolicKernel.Text.Quoted

/-!
Names of symbols. A qualified name joins a context and a short name by a mark; the context may hold marks
itself, the short name may not, so a name is taken apart at its last mark.
-/
namespace SymbolicKernel

/-- The back-quote between a context and a name. -/
def contextMark : Char := '\x60'

/-- The context of names that are given without one. -/
def systemContext : String := "System"

/-- Why a text is not a qualified name. -/
structure MalformedName where
  text : String
  deriving DecidableEq

def MalformedName.message (e : MalformedName) : String :=
  "malformed qualified name: " ++ Text.quoted e.text

def hasDoubleMark : List Char → Bool
  | a :: b :: rest => (a == contextMark && b == contextMark) || hasDoubleMark (b :: rest)
  | _ => false

/-- A text before and after its last mark, if it has one. -/
def splitAtLastMark : List Char → Option (List Char × List Char)
  | [] => none
  | c :: rest =>
    match splitAtLastMark rest with
    | some (before, after) => some (c :: before, after)
    | none => if c = contextMark then some ([], rest) else none

/-- The parts of a qualified name: neither is empty, the short name has no mark, and the context has none at
its ends and no two in a row. -/
def QualifiedName.WellFormed (context name : String) : Prop :=
  context ≠ "" ∧ name ≠ "" ∧ contextMark ∉ name.toList ∧ context.toList.head? ≠ some contextMark ∧
    context.toList.getLast? ≠ some contextMark ∧ hasDoubleMark context.toList = false

instance (context name : String) : Decidable (QualifiedName.WellFormed context name) := by
  unfold QualifiedName.WellFormed
  infer_instance

structure QualifiedName where
  context : String
  name : String
  wellFormed : QualifiedName.WellFormed context name
  deriving DecidableEq

namespace QualifiedName

def join (context name : String) : String :=
  context ++ contextMark.toString ++ name

def text (q : QualifiedName) : String :=
  join q.context q.name

def ofParts (context name : String) : Except MalformedName QualifiedName :=
  if h : WellFormed context name then .ok ⟨context, name, h⟩ else .error ⟨join context name⟩

/-- The qualified name that a text denotes. Without a mark it is a name in the system context. -/
def parse (raw : String) : Except MalformedName QualifiedName :=
  match splitAtLastMark raw.toList with
  | some (context, name) =>
    match ofParts (String.ofList context) (String.ofList name) with
    | .ok q => .ok q
    | .error _ => .error ⟨raw⟩
  | none => if raw = "" then .error ⟨raw⟩ else ofParts systemContext raw

end QualifiedName

/-- Whether a text can stand for a context in front of names: it ends in a mark, has no two in a row, and starts
with one only where that is allowed. -/
def isQualifiedContext (allowInitialMark : Bool) (text : String) : Bool :=
  text.toList.getLast? = some contextMark ∧ hasDoubleMark text.toList = false ∧
    (allowInitialMark ∨ text.toList.head? ≠ some contextMark)

/-- The qualified form of a name seen from a context: a name with a leading mark is relative to the context, one
with a mark inside is qualified already, and any other belongs to the context. -/
def qualify (name context : String) : Except MalformedName String :=
  if name = "" then .error ⟨name⟩
  else
    let qualified :=
      if name.toList.head? = some contextMark then context ++ name
      else if contextMark ∈ name.toList then name
      else QualifiedName.join context name
    (QualifiedName.parse qualified).map fun _ => qualified

end SymbolicKernel

import Mathlib.Data.String.Basic
import SymbolicKernel.Symbol.Table

namespace SymbolicKernel

theorem splitAtLastMark_of_notMem {text : List Char} (unmarked : contextMark ∉ text) :
    splitAtLastMark text = none := by
  induction text with
  | nil => rfl
  | cons c rest ih =>
    simp only [List.mem_cons, not_or] at unmarked
    simp [splitAtLastMark, ih unmarked.2, Ne.symm unmarked.1]

/-- The mark that splits a text is the one with no mark behind it, however many stand in front. -/
theorem splitAtLastMark_append (before : List Char) {after : List Char} (unmarked : contextMark ∉ after) :
    splitAtLastMark (before ++ contextMark :: after) = some (before, after) := by
  induction before with
  | nil => simp [splitAtLastMark, splitAtLastMark_of_notMem unmarked]
  | cons c before ih => simp [splitAtLastMark, ih]

namespace QualifiedName

theorem join_toList (context name : String) :
    (join context name).toList = context.toList ++ contextMark :: name.toList := by
  simp [join, Char.toString]

theorem ofParts_self (q : QualifiedName) : ofParts q.context q.name = .ok q := by
  simp [ofParts, q.wellFormed]

/-- A qualified name is read back from its text, so the text decides both parts. -/
theorem parse_text (q : QualifiedName) : parse q.text = .ok q := by
  have split : splitAtLastMark q.text.toList = some (q.context.toList, q.name.toList) := by
    rw [text, join_toList]
    exact splitAtLastMark_append _ q.wellFormed.2.2.1
  simp [parse, split, ofParts_self]

theorem text_injective : Function.Injective text := by
  intro p q same
  have read := parse_text p
  rw [same, parse_text q] at read
  exact (Except.ok.inj read).symm

end QualifiedName

namespace Symbol

@[simp] theorem ofName_serial (serial : Nat) (q : QualifiedName) : (ofName serial q).serial = serial := rfl

theorem contextMark_utf8Size : contextMark.utf8Size = 1 := by decide

/-- Cutting the stored text at the stored byte gives back the two parts that were joined. -/
theorem ofName_context (serial : Nat) (q : QualifiedName) : (ofName serial q).context = q.context := by
  have cut := String.extract_of_valid [] q.context.toList (contextMark :: q.name.toList)
  have whole : String.ofList ([] ++ q.context.toList ++ contextMark :: q.name.toList) = q.text := by
    rw [QualifiedName.text, ← String.ofList_toList (s := QualifiedName.join _ _), QualifiedName.join_toList]
    rfl
  rw [whole, String.utf8Len_toList, String.ofList_toList] at cut
  simpa [context, ofName, String.utf8Len] using cut

theorem ofName_shortName (serial : Nat) (q : QualifiedName) : (ofName serial q).shortName = q.name := by
  have cut := String.extract_of_valid (q.context.toList ++ [contextMark]) q.name.toList []
  have whole : String.ofList (q.context.toList ++ [contextMark] ++ q.name.toList ++ []) = q.text := by
    rw [QualifiedName.text, ← String.ofList_toList (s := QualifiedName.join _ _), QualifiedName.join_toList]
    simp
  have start : String.utf8Len (q.context.toList ++ [contextMark]) = q.context.utf8ByteSize + 1 := by
    simp [String.utf8Len_toList, contextMark_utf8Size]
  have stop : q.text.utf8ByteSize = q.context.utf8ByteSize + 1 + q.name.utf8ByteSize := by
    rw [← String.utf8Len_toList, QualifiedName.text, QualifiedName.join_toList]
    simp [String.utf8Len_toList, contextMark_utf8Size]
    omega
  rw [whole, start, String.utf8Len_toList, String.ofList_toList] at cut
  simpa [shortName, ofName, String.rawEndPos, stop] using cut

end Symbol

end SymbolicKernel

import SymbolicKernel.Text.Printable

/-!
A text as it is quoted in messages: every character visible, so that two different texts never look alike.
-/
namespace SymbolicKernel.Text

/-- How one character is written inside a quoted text: the quote and the backslash behind a backslash, the
usual control characters by a letter, and everything that is not printable by its code point. -/
def escape (c : Char) : List Char :=
  if c = '"' ∨ c = '\\' then ['\\', c]
  else if c = '\x00' then ['\\', '0']
  else if c = '\t' then ['\\', 't']
  else if c = '\r' then ['\\', 'r']
  else if c = '\n' then ['\\', 'n']
  else if isPrintable c then [c]
  else ['\\', 'u', '\x7b'] ++ Nat.toDigits 16 c.toNat ++ ['\x7d']

/-- A text between double quotes, with its special characters escaped. -/
def quoted (text : String) : String :=
  String.ofList ('"' :: text.toList.flatMap escape ++ ['"'])

end SymbolicKernel.Text

/-!
The escapes in written texts and file names. A backslash and the character after it are taken together, in one
pass from the left, so no backslash is used twice.
-/
namespace SymbolicKernel.Text

/-- The character that an escape with the given letter stands for, if there is such an escape. -/
def unescape : Char → Option Char
  | '\\' => some '\\'
  | '"' => some '"'
  | 'r' => some '\r'
  | 'n' => some '\n'
  | 't' => some '\t'
  | _ => none

/-- A text with its escapes replaced. What is no escape is kept as it is, and so is a backslash at the end. -/
def decode : List Char → List Char
  | [] => []
  | [c] => [c]
  | c :: d :: rest =>
    if c = '\\' then
      match unescape d with
      | some e => e :: decode rest
      | none => c :: d :: decode rest
    else c :: decode (d :: rest)

/-- A text without the pair of double quotes around it, if it has one. A lone quote is not a pair. -/
def unquote (text : List Char) : List Char :=
  match text with
  | '"' :: rest => if rest.getLast? = some '"' then rest.dropLast else text
  | _ => text

/-- A text with a backslash put in front of a character wherever it occurs. -/
def protect (c : Char) (text : List Char) : List Char :=
  text.flatMap fun d => if d = c then ['\\', d] else [d]

def decodeString (raw : String) : String :=
  String.ofList (decode raw.toList)

/-- The text that a written file name denotes: its quotes are dropped, its escapes replaced, and the backslashes
that are left are doubled. -/
def decodeFilename (raw : String) : String :=
  String.ofList (protect '\\' (decode (unquote raw.toList)))

end SymbolicKernel.Text

import SymbolicKernel.Expr.Basic
import SymbolicKernel.Text.Escaped

/-!
The written form of expressions, and the form for inspection that also shows how a value is represented.
-/
namespace SymbolicKernel.Expr

/-- A text between quotes: its backslashes are protected first and its quotes then, so that the backslashes which
protect quotes are not doubled. -/
def quotedText (text : String) : String :=
  String.ofList ('"' :: Text.protect '"' (Text.protect '\\' text.toList) ++ ['"'])

mutual

/-- An expression as it is written: a compound is its head with its leaves in brackets. -/
def text : Expr → String
  | symbol s => s.text
  | number n => n.text
  | string s => quotedText s
  | compound head leaves => text head ++ "[" ++ ", ".intercalate (texts leaves) ++ "]"

def texts : List Expr → List String
  | [] => []
  | e :: es => text e :: texts es

end

mutual

def inspect : Expr → String
  | symbol s => "Symbol(" ++ s.inspect ++ ")"
  | number n => "Number(" ++ n.inspect ++ ")"
  | string s => "String(" ++ Text.quoted s ++ ")"
  | compound head leaves =>
    "Compound(Compound \x7b head: " ++ inspect head ++ ", leaves: [" ++
      ", ".intercalate (inspects leaves) ++ "] \x7d)"

def inspects : List Expr → List String
  | [] => []
  | e :: es => inspect e :: inspects es

end

end SymbolicKernel.Expr

/-!
Blank characters and the trimming of blanks around a text.
-/
namespace SymbolicKernel.Text

/-- The white space of Unicode: the controls from tab to carriage return, the spaces of every width, the two
no-break spaces and the line and paragraph separators. -/
def blanks : List Char :=
  ['\t', '\n', '\x0b', '\x0c', '\r', ' ', '\x85', '\xa0', '\u1680', '\u2000', '\u2001', '\u2002', '\u2003',
  '\u2004', '\u2005', '\u2006', '\u2007', '\u2008', '\u2009', '\u200a', '\u2028', '\u2029', '\u202f', '\u205f',
  '\u3000']

def isBlank (c : Char) : Bool :=
  blanks.contains c

/-- A text without the blanks at its two ends. -/
def trim (text : List Char) : List Char :=
  ((text.dropWhile isBlank).reverse.dropWhile isBlank).reverse

end SymbolicKernel.Text

/-!
# Abacus — Text — Lines

Where a text is cut: at each occurrence of a character, and into lines; and the reading of all
newline conventions as one.
-/

namespace Abacus.Text

/-- The pieces between the separators, empty ones included; there is always one. -/
def splitAt (separator : Char) : List Char → List (List Char)
  | [] => [[]]
  | c :: cs =>
      match splitAt separator cs with
      | []      => [[]]
      | p :: ps => if c == separator then [] :: p :: ps else (c :: p) :: ps

/-- The characters that end a line. -/
def isLineEnd (c : Char) : Bool :=
  [0x0a, 0x0b, 0x0c, 0x0d, 0x1c, 0x1d, 0x1e, 0x85, 0x2028, 0x2029].contains c.toNat

/-- The lines of `cs` after the line begun by `current`, its characters last first. A carriage
return and the line feed behind it end one line; a text that ends with a line end has no empty
line after it. -/
def linesFrom (current : List Char) : List Char → List (List Char)
  | [] => if current.isEmpty then [] else [current.reverse]
  | '\r' :: '\n' :: cs => current.reverse :: linesFrom [] cs
  | c :: cs =>
      if isLineEnd c then current.reverse :: linesFrom [] cs else linesFrom (c :: current) cs

def lines (cs : List Char) : List (List Char) :=
  linesFrom [] cs

/-- Every newline convention read as a line feed. -/
def unifyNewlines : List Char → List Char
  | [] => []
  | '\r' :: '\n' :: cs => '\n' :: unifyNewlines cs
  | '\r' :: cs => '\n' :: unifyNewlines cs
  | c :: cs => c :: unifyNewlines cs

end Abacus.Text

import Abacus.Text.Lines
import Abacus.Text.Quoted
/-!
# Abacus — Files — Path

Names of places in a file system, empty and single-dot parts left out, and the dotted endings of
file names.
-/

namespace Abacus

/-- The parts of a path and the slashes before them: none, one, or exactly two. -/
structure Path where
  slashes : Nat
  parts : List String
  deriving DecidableEq, Repr

namespace Path

def ofString (s : String) : Path :=
  let lead := (s.toList.takeWhile (· == '/')).length
  { slashes := if lead = 2 then 2 else min lead 1
    parts := ((Text.splitAt '/' s.toList).map String.ofList).filter fun p => p != "" && p != "." }

/-- A path of no parts is written as a dot. -/
def text (p : Path) : String :=
  if p.slashes = 0 ∧ p.parts = [] then "."
  else String.ofList (List.replicate p.slashes '/') ++ String.intercalate "/" p.parts

/-- The path to `name` in the directory `p`. -/
def child (p : Path) (name : String) : Path :=
  { p with parts := p.parts ++ [name] }

/-- The path without its last part. -/
def parent (p : Path) : Path :=
  { p with parts := p.parts.dropLast }

/-- The last part, or nothing. -/
def name (p : Path) : String :=
  p.parts.getLast?.getD ""

/-- The last dotted ending of a name. A dot at either end of the name begins none. -/
def lastEndingOf (name : List Char) : List Char :=
  let last := (name.reverse.takeWhile (· != '.')).reverse
  match name.reverse.dropWhile (· != '.') with
  | _ :: _ :: _ => if last.isEmpty then [] else '.' :: last
  | _           => []

/-- All dotted endings of a name, dots at its front not counted; a name that ends with a dot has
none. -/
def endingsOf (name : List Char) : List (List Char) :=
  if name.getLast? == some '.' then []
  else ((Text.splitAt '.' (name.dropWhile (· == '.'))).drop 1).map ('.' :: ·)

def lastEnding (p : Path) : String :=
  String.ofList (lastEndingOf p.name.toList)

def endings (p : Path) : List String :=
  (endingsOf p.name.toList).map String.ofList

/-- The path beside `p` with another name. -/
def sibling (p : Path) (name : String) : Path :=
  { p with parts := p.parts.dropLast ++ [name] }

/-- A path as messages show it. -/
def description (p : Path) : String :=
  "PosixPath(" ++ Text.quoted p.text ++ ")"

end Path

end Abacus

import Abacus.Files.Archive
import Abacus.Files.Path
import Abacus.Text.Lines
/-!
# Abacus — Files — Tree

Directories, files and archives, each at its place below the root, and the working directory, from
which relative paths lead. A path is followed part by part, so the first part that is missing, no
directory, or too long decides how it fails.

A tree is what one process that may read and write everything sees: there are no permissions and no
links, names are texts, and nothing but that process changes the files. A tree never fills up
either; a device that gives out is a matter of the desk, and there only of its saves.
-/

namespace Abacus

inductive Node where
  | directory
  | file (content : ByteArray)
  | archive (a : Archive)
  deriving DecidableEq

/-- Why a file operation fails. -/
inductive FileFailure where
  | notFound
  | notADirectory
  | isADirectory
  | alreadyThere
  | nameTooLong
  | nullInName
  | notText
  deriving DecidableEq, Repr

/-- The wording, for the failure that does not come from what is there. -/
def FileFailure.message? : FileFailure → Option String
  | .nullInName => some "embedded null byte"
  | _           => none

/-- The names of the directories that lead from the root to a place, and its own. -/
abbrev Place := List String

/-- What stands at each place, and where the work is done. -/
structure FileTree where
  entries : List (Place × Node)
  here : Place

namespace FileTree

/-- An empty working directory, and one for temporary directories. -/
def fresh : FileTree := ⟨[(["work"], .directory), (["tmp"], .directory)], ["work"]⟩

/-- The most bytes that one name may have. -/
def nameLimit : Nat := 255

/-- The most bytes that a path may have. -/
def pathLimit : Nat := 4095

def node? (t : FileTree) (place : Place) : Option Node :=
  match place with
  | [] => some .directory
  | _  => t.entries.lookup place

/-- Puts a node at a place, in the stead of what is there. -/
def put (t : FileTree) (place : Place) (node : Node) : FileTree :=
  if (t.entries.lookup place).isSome then
    { t with entries := t.entries.map fun e => if e.1 == place then (place, node) else e }
  else { t with entries := t.entries ++ [(place, node)] }

/-- Takes away what is at a place, and all below it. -/
def erase (t : FileTree) (place : Place) : FileTree :=
  { t with entries := t.entries.filter fun e => !place.isPrefixOf e.1 }

/-- One step of a path from a place that must be a directory. Two dots lead up, and no further up
than the root. -/
def enter (t : FileTree) (place : Place) (part : String) : Except FileFailure Place :=
  match t.node? place with
  | none            => .error .notFound
  | some .directory =>
      if part == ".." then .ok place.dropLast
      else if nameLimit < part.utf8ByteSize then .error .nameTooLong
      else .ok (place ++ [part])
  | some _          => .error .notADirectory

/-- Where a path sets out from. -/
def origin (t : FileTree) (p : Path) : Place :=
  if p.slashes = 0 then t.here else []

/-- The place that a path names, upward steps carried out. -/
def placeOf (here : Place) (p : Path) : Place :=
  p.parts.foldl (fun place part => if part == ".." then place.dropLast else place ++ [part])
    (if p.slashes = 0 then here else [])

/-- A path that can be followed has no null character in it, which would end it early, and is not
too long as a whole. -/
def checkPath (p : Path) : Except FileFailure Unit :=
  if p.text.toList.contains '\x00' then .error .nullInName
  else if pathLimit < p.text.utf8ByteSize then .error .nameTooLong
  else .ok ()

/-- The place where a path leads; something need not be there, but the way to it must. -/
def locate (t : FileTree) (p : Path) : Except FileFailure Place := do
  checkPath p
  p.parts.foldlM t.enter (t.origin p)

def lookup (t : FileTree) (p : Path) : Except FileFailure Node := do
  match t.node? (← t.locate p) with
  | some n => return n
  | none   => throw .notFound

/-- Whether something is there; only a name that is too long leaves the question open. -/
def isThere (t : FileTree) (p : Path) : Except FileFailure Bool :=
  match t.lookup p with
  | .ok _                => .ok true
  | .error .nameTooLong  => .error .nameTooLong
  | .error _             => .ok false

/-- Whether a regular file is there. -/
def isFile (t : FileTree) (p : Path) : Except FileFailure Bool :=
  match t.lookup p with
  | .ok .directory       => .ok false
  | .ok _                => .ok true
  | .error .nameTooLong  => .error .nameTooLong
  | .error _             => .ok false

/-- The text of bytes in UTF-8, its line ends unified. -/
def decode (bytes : ByteArray) : Except FileFailure String :=
  match String.fromUTF8? bytes with
  | some s => .ok (String.ofList (Text.unifyNewlines s.toList))
  | none   => .error .notText

/-- The text of a file. Archives are no texts. -/
def readText (t : FileTree) (p : Path) : Except FileFailure String := do
  match ← t.lookup p with
  | .directory  => throw .isADirectory
  | .file bytes => decode bytes
  | .archive _  => throw .notText

/-- Puts a file or an archive where a path leads. -/
def write (t : FileTree) (p : Path) (node : Node) : Except FileFailure FileTree := do
  let place ← t.locate p
  match t.node? place with
  | some .directory => throw .isADirectory
  | _               => return t.put place node

def writeText (t : FileTree) (p : Path) (text : String) : Except FileFailure FileTree :=
  t.write p (.file text.toUTF8)

/-- Goes one part further, making the directory if nothing is there. What has been made stays, so
the tree comes back also when the way ends. -/
def makeStep (state : FileTree × Except FileFailure Place) (part : String) :
    FileTree × Except FileFailure Place :=
  match state with
  | (t, .error f)  => (t, .error f)
  | (t, .ok place) =>
      match t.enter place part with
      | .error f => (t, .error f)
      | .ok next =>
          match t.node? next with
          | none            => (t.put next .directory, .ok next)
          | some .directory => (t, .ok next)
          | some _          => (t, .error .alreadyThere)

/-- Makes a directory and those above it that are missing. -/
def makeDirectories (t : FileTree) (p : Path) : FileTree × Except FileFailure Unit :=
  match checkPath p with
  | .error f => (t, .error f)
  | .ok ()   =>
      let (made, result) := p.parts.foldl makeStep (t, .ok (t.origin p))
      (made, result.map fun _ => ())

/-- The tree when the making of a directory breaks off after so many parts of the way. -/
def makeSome (t : FileTree) (p : Path) (parts : Nat) : FileTree :=
  match checkPath p with
  | .error _ => t
  | .ok ()   => ((p.parts.take parts).foldl makeStep (t, .ok (t.origin p))).1

/-- The paths of all files below the working directory, in order. -/
def files (t : FileTree) : List String :=
  let below := t.entries.filter fun e => e.2 != .directory && t.here.isPrefixOf e.1
  (below.map fun e => String.intercalate "/" (e.1.drop t.here.length)).mergeSort

end FileTree

end Abacus

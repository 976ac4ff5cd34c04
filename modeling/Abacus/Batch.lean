import Abacus.Files.Unpack
import Abacus.Session
/-!
# Abacus — Batch

Expressions read from a file, one to a line, or from the first text in an archive, and the file
of results beside it.
-/

namespace Abacus.Batch

/-- Why a batch cannot be read or its results cannot be placed. -/
inductive Failure where
  | unsupported (ending : String)
  | noText (kind : ArchiveKind)
  | unreadable (path : Path)
  | emptyName (path : Path)
  | file (f : FileFailure)
  deriving DecidableEq, Repr

/-- The wording, for failures that are not the file system's. -/
def Failure.message? : Failure → Option String
  | .unsupported s => some ("📄❌ Unsupported archive format: " ++ s)
  | .noText k      => some ("📄❌ No .txt file found in " ++ k.name ++ " archive")
  | .unreadable p  => some ("📄❌ Unreadable archive " ++ p.text)
  | .emptyName p   => some (p.description ++ " has an empty name")
  | .file _        => none

/-! ### Archives -/

/-- The kind of archive that a path's endings announce. -/
def kindOf? (p : Path) : Option ArchiveKind :=
  if p.lastEnding == ".zip" then some .zip
  else if p.endings.drop (p.endings.length - 2) == [".tar", ".xz"] then some .tarXz
  else if p.lastEnding == ".7z" then some .sevenZip
  else none

def isText (name : String) : Bool :=
  ".txt".toList.isSuffixOf name.toList

/-- The text of the first member whose name is that of a text, unpacked in a directory and sought
there under its name. -/
def textOf [SevenZip] (t : FileTree) (dir : Place) (p : Path) (a : Archive) :
    Except Failure String :=
  match a.names.find? isText with
  | none      => .error (.noText a.kind)
  | some name => do
      let unpacked ← (a.unpack t dir name).mapError fun
        | .refused => Failure.unreadable p
        | .file f  => .file f
      (unpacked.readText ((Path.ofString name).within dir)).mapError .file

/-- The text in an archive. A temporary directory is made first, and the path's endings are looked
at before the file is. -/
def extract [SevenZip] (t : FileTree) (p : Path) : Except Failure String := do
  let (t, dir) ← t.makeTemporary.mapError .file
  match kindOf? p with
  | none      => .error (.unsupported p.lastEnding)
  | some kind =>
      match t.lookup p with
      | .error f         => .error (.file f)
      | .ok .directory   => .error (.file .isADirectory)
      | .ok (.file _)    => .error (.unreadable p)
      | .ok (.archive a) => if a.kind = kind then textOf t dir p a else .error (.unreadable p)

/-! ### Expressions -/

/-- The lines of a text without the blanks around them, empty ones left out. -/
def expressionsOf (text : String) : List String :=
  (((Text.lines text.toList).map Text.trim).filter fun l => !l.isEmpty).map String.ofList

/-- The expressions in a text file or an archive. -/
def expressions [SevenZip] (t : FileTree) (p : Path) : Except Failure (List String) := do
  let text ← if p.lastEnding == ".txt" then (t.readText p).mapError .file else extract t p
  return expressionsOf text

/-! ### Results -/

/-- The path of the results: beside the input, under its name with the dots of its endings made
underscores. -/
def outputPath (p : Path) : Except Failure Path :=
  if p.name.isEmpty then .error (.emptyName p)
  else
    let dotted := p.endings.flatMap String.toList
    let stem := p.name.toList.take (p.name.length - dotted.length)
    let ending := dotted.map fun c => if c == '.' then '_' else c
    .ok (p.sibling (String.ofList (stem ++ ending) ++ "_results.txt"))

/-- The line of one result. -/
def lineOf (o : Outcome) (source text : String) : String :=
  match o.message? with
  | some message => source ++ " -> ERROR: " ++ message
  | none         => source ++ " = " ++ text

/-- Why a run over a file ends early. -/
inductive RunFailure where
  | batch (f : Failure)
  | stop (s : Stop)

/-- Evaluates the expressions in turn and collects their lines. -/
def evaluateAll (s : Session) : List String → Attempt Stop (List String × Session)
  | []      => return ([], s)
  | e :: es => do
      let (o, text, s) ← s.evaluate e
      let (lines, s) ← evaluateAll s es
      return (lineOf o e text :: lines, s)

/-- Puts a text where the results go. -/
def place (output : Path) (text : String) : Attempt RunFailure Unit := do
  let written ← Attempt.of (((← get).files.writeText output text).mapError (.batch ∘ .file))
  modify fun d => { d with files := written }

/-- Evaluates every expression of a file and writes the results beside it. Nothing is evaluated
unless the input can be read and the results can be written. -/
def run [SevenZip] (s : Session) (input : Path) : Attempt RunFailure (Path × Session) := do
  let output ← Attempt.of ((outputPath input).mapError .batch)
  let sources ← Attempt.of ((expressions (← get).files input).mapError .batch)
  Desk.note .info
  place output ""
  let (lines, s) ← ExceptT.adapt .stop (evaluateAll s sources)
  place output (String.join (lines.map (· ++ "\n")))
  Desk.note .info
  return (output, s)

end Abacus.Batch

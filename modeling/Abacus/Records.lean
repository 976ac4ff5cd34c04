import Abacus.Desk
import Abacus.Json.Parser
import Abacus.Json.Printer
/-!
# Abacus — Records

Documents kept one to a file in a directory, under keys. Reading gives a document or nothing;
saving is tried, and a save that fails is noted and dropped.
-/

namespace Abacus

structure RecordStore where
  directory : Path
  deriving DecidableEq, Repr

namespace RecordStore

/-- Characters that stand for themselves in the name of a record's file. -/
def isSafe (c : Char) : Bool :=
  c.isAlphanum || c == '.' || c == '_' || c == '-'

/-- The name of the file of a record. -/
def fileName (key : String) : String :=
  String.ofList (key.toList.map fun c => if isSafe c then c else '_') ++ ".json"

def recordPath (store : RecordStore) (key : String) : Path :=
  store.directory.child (fileName key)

/-- The document in a file. -/
def readDocument? (t : FileTree) (p : Path) : Option Json :=
  match t.readText p with
  | .ok text => Json.parse? text
  | .error _ => none

/-- The document under a key, or nothing if there is none. A file that cannot be read as a
document is noted and passed over. -/
def load (store : RecordStore) (key : String) : Attempt FileFailure (Option Json) := do
  let files := (← get).files
  let path := store.recordPath key
  if ← Attempt.of (files.isThere path) then
    match readDocument? files path with
    | some doc => return some doc
    | none     =>
        Desk.note .warning
        return none
  else return none

/-- The files after a save, and whether it succeeded. The directory is made first and then the
text, so the old document stays unless the new one can be written. -/
def saved (t : FileTree) (path directory : Path) (doc : Json) : FileTree × Bool :=
  let (made, result) := t.makeDirectories directory
  match result, doc.print? with
  | .ok _, some text =>
      match made.writeText path text with
      | .ok written => (written, true)
      | .error _    => (made, false)
  | _, _ => (made, false)

/-- The files after a save in which the device gives out, and what it has taken of the text if the
file has been opened by then. Opening the file empties it, so that the old document is lost. -/
def brokenOff (t : FileTree) (path directory : Path) (doc : Json) :
    Refusal → FileTree × Option ByteArray
  | .making n  => (t.makeSome directory n, none)
  | .opening   => ((t.makeDirectories directory).1, none)
  | .writing n =>
      let (made, result) := t.makeDirectories directory
      match result, doc.print? with
      | .ok _, some text =>
          let taken := text.toUTF8.extract 0 n
          match made.write path (.file taken) with
          | .ok cut  => (cut, some taken)
          | .error _ => (made, none)
      | _, _ => (made, none)

/-- Saves a document under a key. -/
def save (store : RecordStore) (key : String) (doc : Json) : Work Bool := do
  let refusal? ← Desk.takeRefusal
  let files := (← get).files
  let path := store.recordPath key
  let (files, done) := match refusal? with
    | some r => ((brokenOff files path store.directory doc r).1, false)
    | none   => saved files path store.directory doc
  modify fun d => { d with files := files }
  unless done do Desk.note .error
  return done

end RecordStore

end Abacus

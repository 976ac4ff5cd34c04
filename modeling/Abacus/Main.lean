import Abacus.CommandLine.Run
import Std.Time.DateTime.Timestamp
/-!
# Abacus — Main

The program: what it needs of the file system is looked at first, the command is carried out on
that, and what it changed is written back.
-/

namespace Abacus.Main

/-- What stands at a place of the file system, or nothing that can be read. -/
def probe (place : Place) : IO (Option Node) := do
  try
    return some (.file (← IO.FS.readBinFile ("/" ++ String.intercalate "/" place)))
  catch
    | .inappropriateType .. => return some .directory
    | _                     => return none

/-- Adds a place and all above it to a tree. -/
def survey (t : FileTree) (place : Place) : IO FileTree :=
  (List.range place.length).foldlM (fun t n => do
    let above := place.take (n + 1)
    if (t.node? above).isSome then return t
    match ← probe above with
    | some node => return t.put above node
    | none      => return t) t

/-- The paths that a request reads or writes. -/
def pathsOf (r : CommandLine.Request) (standard : Path) : List Path :=
  let store : RecordStore := ⟨match r.dataDir with | .value p => p | _ => standard⟩
  let records := [store.recordPath KeptPreferences.key, store.recordPath KeptHistory.key]
  match r.file with
  | .value p => records ++ [p] ++ (Batch.outputPath p).toOption.toList
  | _        => records

/-- Writes what a command changed. -/
def writeBack (before after : FileTree) : IO Unit :=
  after.entries.forM fun (place, node) => do
    let path := "/" ++ String.intercalate "/" place
    if before.node? place != some node then
      match node with
      | .directory    => IO.FS.createDirAll path
      | .file content => IO.FS.writeBinFile path content
      | .archive _    => pure ()

def usage : String :=
  "usage: abacus [-h] [-f FILE] [-p PRECISION] [-t light|dark] [--history [N]] [--data-dir DIR] " ++
    "[expression]"

/-- Ends the program as a command does. -/
def finish : Except CommandLine.RunFailure CommandLine.Report → IO UInt32
  | .ok r => do
      IO.print r.text
      return r.status.toUInt32
  | .error (.ending e) => do
      (if e = .help then IO.println usage else IO.eprintln usage)
      return e.code.toUInt32
  | .error _ => do
      IO.eprintln "abacus: the command could not be carried out"
      return 1

end Abacus.Main

open Abacus in
def main (args : List String) : IO UInt32 := do
  let here := (Path.ofString (← IO.currentDir).toString).parts
  let home := (← IO.getEnv "HOME").getD "/"
  let standard := (Path.ofString home).child ".mini-calc"
  let now ← Std.Time.Timestamp.now
  let paths := match CommandLine.Request.ofArguments args with
    | .ok r    => Main.pathsOf r standard
    | .error _ => []
  let places := here :: FileTree.temporaryRoot :: paths.map (FileTree.placeOf here)
  let before ← places.foldlM Main.survey ⟨[], here⟩
  let clock : Clock := ⟨now.toMillisecondsSinceUnixEpoch.toInt * 1000, 0, 0⟩
  let desk : Desk := { files := before, clock := clock }
  let (result, after) := (CommandLine.runArguments standard args).run desk
  after.notices.forM fun level => IO.eprintln ("abacus: " ++ level.name)
  Main.writeBack before after.files
  Main.finish result

import Abacus.Batch
import Abacus.CommandLine.Command
/-!
# Abacus — CommandLine — Run

Carrying a command out: preferences first, then the file, the expression and the history, all in
one session.
-/

namespace Abacus.CommandLine

/-- What a command prints and the status it ends with. -/
structure Report where
  status : Nat
  lines : List String
  deriving DecidableEq, Repr

/-- Why a command ends without a report. -/
inductive RunFailure where
  | ending (e : Ending)
  | file (f : FileFailure)
  | infinitePrecision
  | preferences (f : PreferencesFailure)
  | stop (s : Stop)

def RunFailure.ofRefusal : Refusal → RunFailure
  | .ending e => .ending e
  | .file f   => .file f

def RunFailure.ofOpening : OpenFailure → RunFailure
  | .file f            => .file f
  | .infinitePrecision => .infinitePrecision

/-- Stores the preferences that a command gives. -/
def setPreferences (c : Command) (s : Session) : Attempt RunFailure Session := do
  let s ← match c.precision with
    | none   => pure s
    | some p =>
        let kept ← ExceptT.adapt .preferences (s.preferences.choosePrecision (.int p.places))
        pure { s with preferences := kept }
  match c.theme with
  | none   => return s
  | some t =>
      let kept ← ExceptT.adapt .preferences (s.preferences.chooseTheme (.string t.name))
      return { s with preferences := kept }

/-- Evaluates the file of a command. A file that cannot be worked on is noted and gives status
one. -/
def evaluateFile [SevenZip] (c : Command) (s : Session) :
    Attempt RunFailure (Report × Session) := do
  match c.file with
  | none   => return (⟨0, []⟩, s)
  | some p =>
      let before ← get
      match (Batch.run s p).run before with
      | (.ok (output, s), after) =>
          set after
          return (⟨0, [output.text]⟩, s)
      | (.error (.batch _), after) =>
          set after
          Desk.note .error
          return (⟨1, []⟩, s)
      | (.error (.stop stop), after) =>
          set after
          throw (.stop stop)

/-- Evaluates the expression of a command. -/
def evaluateExpression (c : Command) (s : Session) : Attempt RunFailure (Report × Session) := do
  match c.expression with
  | none   => return (⟨0, []⟩, s)
  | some e =>
      let (o, text, s) ← ExceptT.adapt .stop (s.evaluate e)
      return (⟨if o.isOk then 0 else 1, [text]⟩, s)

/-- The entries that a command prints, newest first. -/
def historyLines (c : Command) (s : Session) : List String :=
  match c.history with
  | none   => []
  | some n => (s.history.history.recent (some n)).map fun e => e.expression ++ " = " ++ e.result

/-- Carries a command out with its records in `directory`. -/
def Command.run [SevenZip] (c : Command) (directory : Path) : Attempt RunFailure Report := do
  let s ← ExceptT.adapt RunFailure.ofOpening (Session.openAt (some directory))
  let s ← setPreferences c s
  let (ofFile, s) ← evaluateFile c s
  let (ofExpression, s) ← evaluateExpression c s
  return ⟨max ofFile.status ofExpression.status,
    ofFile.lines ++ ofExpression.lines ++ historyLines c s⟩

/-- Reads arguments and carries their command out; `standard` holds the records unless the
arguments name another directory. -/
def runArguments [SevenZip] (standard : Path) (args : List String) :
    Attempt RunFailure Report := do
  let files := (← get).files
  match Command.ofArguments files args with
  | .error r => throw (.ofRefusal r)
  | .ok c    => c.run (c.dataDir.getD standard)

/-- The text that a report prints. -/
def Report.text (r : Report) : String :=
  String.join (r.lines.map (· ++ "\n"))

end Abacus.CommandLine

import Abacus.Proofs.Batch
import Abacus.CommandLine.Run
import Abacus.Proofs.Preferences

/-!
# Abacus — CommandLine — The tasks of a command

A command asks for up to five tasks, each of which could be asked for by a command of its own
(`Task.command`).  Carrying a command out is performing its tasks one after the other in one session
(`Command.run_eq`), and its report is theirs put together.  What each task does is said by an
equation for its outcome and the desk after it.
-/

namespace Abacus.CommandLine

/-! ### Reports -/

namespace Report

/-- The report of a task that prints nothing and does not fail. -/
def silent : Report := ⟨0, []⟩

/-- One report of two: all that they print, and the greater status. -/
def beside (r q : Report) : Report :=
  ⟨max r.status q.status, r.lines ++ q.lines⟩

@[simp] theorem silent_beside (r : Report) : silent.beside r = r := by
  simp [silent, beside]

@[simp] theorem beside_silent (r : Report) : r.beside silent = r := by
  simp [silent, beside]

theorem beside_assoc (r q p : Report) : (r.beside q).beside p = r.beside (q.beside p) := by
  simp [beside, max_assoc]

def joined (rs : List Report) : Report :=
  rs.foldr beside silent

theorem joined_append (rs qs : List Report) :
    joined (rs ++ qs) = (joined rs).beside (joined qs) := by
  induction rs with
  | nil => simp [joined]
  | cons r rs ih =>
      show r.beside (joined (rs ++ qs)) = (r.beside (joined rs)).beside (joined qs)
      rw [ih, beside_assoc]

theorem joined_singleton (r : Report) : joined [r] = r :=
  r.beside_silent

theorem text_joined (rs : List Report) : (joined rs).text = String.join (rs.map text) := by
  have hjoin (as bs : List String) : String.join (as ++ bs) = String.join as ++ String.join bs := by
    induction as with
    | nil => simp
    | cons a as ih => simp [ih, String.append_assoc]
  induction rs with
  | nil => rfl
  | cons r rs ih =>
      rw [List.map_cons, String.join_cons, ← ih]
      show String.join ((r.lines ++ (joined rs).lines).map (· ++ "\n")) = _
      rw [List.map_append, hjoin]
      rfl

/-- Where every status is zero or one, so is that of all, and it is one where one of them is. -/
theorem status_joined {rs : List Report} (h : ∀ r ∈ rs, r.status ≤ 1) :
    (joined rs).status ≤ 1 ∧ ((joined rs).status = 1 ↔ ∃ r ∈ rs, r.status = 1) := by
  induction rs with
  | nil => exact ⟨Nat.zero_le 1, nofun, nofun⟩
  | cons r rs ih =>
      rw [List.forall_mem_cons] at h
      obtain ⟨hle, hone⟩ := ih h.2
      have hstatus : (joined (r :: rs)).status = max r.status (joined rs).status := rfl
      rw [hstatus, List.exists_mem_cons_iff, ← hone]
      have := h.1
      omega

end Report

/-! ### Tasks -/

/-- What a command can ask for. -/
inductive Task where
  | precision (p : Precision)
  | theme (t : Theme)
  | file (p : Path)
  | expression (e : String)
  | history (n : ℕ)

/-- The command that asks for one task and nothing else. -/
def Task.command (dataDir : Option Path) : Task → Command
  | .precision p  => ⟨none, none, some p, none, none, dataDir⟩
  | .theme t      => ⟨none, none, none, some t, none, dataDir⟩
  | .file p       => ⟨none, some p, none, none, none, dataDir⟩
  | .expression e => ⟨some e, none, none, none, none, dataDir⟩
  | .history n    => ⟨none, none, none, none, some n, dataDir⟩

/-- The tasks that a command asks for, in the order of the program. -/
def Command.tasks (c : Command) : List Task :=
  ((c.precision.map .precision).toList ++ (c.theme.map .theme).toList) ++
    ((c.file.map .file).toList ++
      ((c.expression.map .expression).toList ++ (c.history.map .history).toList))

@[simp] theorem Task.tasks_command (dataDir : Option Path) (t : Task) :
    (t.command dataDir).tasks = [t] := by
  cases t <;> rfl

namespace Task
variable [SevenZip]

/-- Performs a task in a session. -/
def perform (s : Session) : Task → Attempt RunFailure (Report × Session)
  | .precision p  => do return (.silent, ← setPreferences (command none (.precision p)) s)
  | .theme t      => do return (.silent, ← setPreferences (command none (.theme t)) s)
  | .file p       => evaluateFile (command none (.file p)) s
  | .expression e => evaluateExpression (command none (.expression e)) s
  | .history n    => return (⟨0, historyLines (command none (.history n)) s⟩, s)

/-- Performs tasks one after the other. -/
def performAll (s : Session) : List Task → Attempt RunFailure (List Report × Session)
  | []      => return ([], s)
  | t :: ts => do
      let (r, s) ← t.perform s
      let (rs, s) ← performAll s ts
      return (r :: rs, s)

/-- The same with one report for all. -/
def performJoined (s : Session) (ts : List Task) : Attempt RunFailure (Report × Session) := do
  let (rs, s) ← performAll s ts
  return (.joined rs, s)

/-- Tasks are performed in parts, the later ones in the session that the earlier ones leave. -/
theorem performAll_append (s : Session) (ts us : List Task) :
    performAll s (ts ++ us) = do
      let (rs, s) ← performAll s ts
      let (qs, s) ← performAll s us
      return (rs ++ qs, s) := by
  induction ts generalizing s with
  | nil => simp [performAll]
  | cons t ts ih => simp [performAll, ih]

theorem performJoined_nil (s : Session) : performJoined s [] = pure (.silent, s) := by
  simp [performJoined, performAll, Report.joined]

theorem performJoined_singleton (s : Session) (t : Task) : performJoined s [t] = t.perform s := by
  simp [performJoined, performAll, Report.joined_singleton]

theorem performJoined_append (s : Session) (ts us : List Task) :
    performJoined s (ts ++ us) = do
      let (r, s) ← performJoined s ts
      let (q, s) ← performJoined s us
      return (r.beside q, s) := by
  simp [performJoined, performAll_append, Report.joined_append]

end Task

/-! ### Commands by their tasks -/

section Stages
variable [SevenZip] (c : Command) (s : Session)

/-- The tasks that change the preferences are the changes of the command, and report nothing. -/
theorem performJoined_preferences :
    Task.performJoined s
        ((c.precision.map Task.precision).toList ++ (c.theme.map Task.theme).toList) = do
      return (.silent, ← setPreferences c s) := by
  obtain ⟨-, -, p, t, -, -⟩ := c
  cases p <;> cases t <;>
    simp [Task.performJoined, Task.performAll, Task.perform, Task.command, setPreferences,
      Report.joined]

/-- The task of a file, if there is one, is that of the command. -/
theorem performJoined_file :
    Task.performJoined s (c.file.map Task.file).toList = evaluateFile c s := by
  obtain ⟨-, f, -, -, -, -⟩ := c
  cases f with
  | none => exact Task.performJoined_nil s
  | some p => exact Task.performJoined_singleton s (.file p)

theorem performJoined_expression :
    Task.performJoined s (c.expression.map Task.expression).toList = evaluateExpression c s := by
  obtain ⟨e, -, -, -, -, -⟩ := c
  cases e with
  | none => exact Task.performJoined_nil s
  | some e => exact Task.performJoined_singleton s (.expression e)

theorem performJoined_history :
    Task.performJoined s (c.history.map Task.history).toList =
      return (⟨0, historyLines c s⟩, s) := by
  obtain ⟨-, -, -, -, h, -⟩ := c
  cases h with
  | none => exact Task.performJoined_nil s
  | some n => exact Task.performJoined_singleton s (.history n)

end Stages

/-- Carrying a command out is performing its tasks in a session that has been opened for them. -/
theorem Command.run_eq [SevenZip] (c : Command) (directory : Path) :
    c.run directory = do
      let s ← ExceptT.adapt RunFailure.ofOpening (Session.openAt (some directory))
      let (rs, _) ← Task.performAll s c.tasks
      return Report.joined rs := by
  have hjoined (s : Session) : Task.performJoined s c.tasks = do
      let s ← setPreferences c s
      let (ofFile, s) ← evaluateFile c s
      let (ofExpression, s) ← evaluateExpression c s
      return (⟨max ofFile.status ofExpression.status,
        ofFile.lines ++ ofExpression.lines ++ historyLines c s⟩, s) := by
    rw [tasks, Task.performJoined_append, performJoined_preferences]
    simp [Task.performJoined_append, performJoined_file, performJoined_expression,
      performJoined_history, Report.beside, Report.silent]
  have hrun (s : Session) : (do
      let (rs, _) ← Task.performAll s c.tasks
      return Report.joined rs : Attempt RunFailure Report) =
        Prod.fst <$> Task.performJoined s c.tasks := by
    simp [Task.performJoined]
  simp only [hrun, hjoined]
  simp [run]

/-! ### What each task does -/

namespace Task

/-- The preferences that a task leaves, if it changes them. -/
def changed? (q : Preferences) : Task → Option Preferences
  | .precision p => some { q with precision := p }
  | .theme t     => some { q with theme := t }
  | _            => none

variable {s : Session} {d : Desk}

theorem runAt_adapt_change (k : KeptPreferences) (q : Preferences) (d : Desk) :
    Attempt.runAt (ExceptT.adapt RunFailure.preferences (k.change (.ok q))) d =
      (.ok { k with preferences := q }, d.afterSave k.store KeptPreferences.key q.toJson) := by
  rw [Attempt.runAt_adapt, KeptPreferences.runAt_change]
  rfl

variable [SevenZip]

/-- A task that changes the preferences is one save of them. -/
theorem runAt_perform_of_changed {t : Task} {q : Preferences}
    (h : t.changed? s.preferences.preferences = some q) :
    (t.perform s).runAt d =
      (.ok (.silent, { s with preferences := { s.preferences with preferences := q } }),
        d.afterSave s.preferences.store KeptPreferences.key q.toJson) := by
  cases t with
  | precision p =>
      cases h
      have hchoose : s.preferences.preferences.choosePrecision (.int p.places) =
          .ok { s.preferences.preferences with precision := p } := by
        simp only [Preferences.choosePrecision, Precision.ofJson, Json.whole,
          Precision.clamp_places]
      rw [perform, setPreferences]
      simp only [command, KeptPreferences.choosePrecision, hchoose, bind_assoc]
      rw [Attempt.runAt_bind_of_ok (runAt_adapt_change _ _ d)]
      rfl
  | theme t =>
      cases h
      have hchoose : s.preferences.preferences.chooseTheme (.string t.name) =
          .ok { s.preferences.preferences with theme := t } := by
        simp only [Preferences.chooseTheme, Theme.ofJson?, Theme.ofName?_name]
      rw [perform, setPreferences]
      simp only [command, KeptPreferences.chooseTheme, hchoose, bind_assoc, pure_bind]
      rw [Attempt.runAt_bind_of_ok (runAt_adapt_change _ _ d)]
      rfl
  | file | expression | history => cases h

/-- A task that evaluates an expression reports its text, and tells by the status whether it failed.
-/
theorem runAt_perform_expression {e text : String} {o : Outcome} {next : Session} {after : Desk}
    (h : (s.evaluate e).runAt d = (.ok (o, text, next), after)) :
    ((expression e).perform s).runAt d =
      (.ok (⟨if o.isOk then 0 else 1, [text]⟩, next), after) := by
  rw [perform, evaluateExpression]
  simp only [command]
  rw [Attempt.runAt_bind, Attempt.runAt_adapt, h]
  rfl

/-- A task that evaluates a file reports where the results are, or fails as the run over it does. -/
theorem runAt_perform_file (p : Path) (s : Session) (d : Desk) :
    ((file p).perform s).runAt d =
      match (Batch.run s p).runAt d with
      | (.ok (output, next), after)     => (.ok (⟨0, [output.text]⟩, next), after)
      | (.error (.batch _), after)      => (.ok (⟨1, []⟩, s), after.noted [.error])
      | (.error (.stop reason), after)  => (.error (.stop reason), after) := by
  rw [perform, evaluateFile]
  simp only [command]
  rw [Attempt.runAt_bind_of_ok (Attempt.runAt_get d)]
  rw [show ExceptT.run (Batch.run s p) d = (Batch.run s p).runAt d from rfl]
  cases (Batch.run s p).runAt d with
  | mk result after =>
      cases result with
      | ok r => rfl
      | error e => cases e <;> rfl

/-- A task that lists the history leaves everything as it is. -/
theorem runAt_perform_history (n : ℕ) (s : Session) (d : Desk) :
    ((history n).perform s).runAt d =
      (.ok (⟨0, (s.history.history.recent (some n)).map fun e =>
        e.expression ++ " = " ++ e.result⟩, s), d) :=
  rfl

end Task

end Abacus.CommandLine

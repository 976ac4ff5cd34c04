import Abacus.Proofs.CommandLine.Tasks
import Abacus.Proofs.Session.Akin

/-!
# Abacus — CommandLine — One command for several

A command with several options against the commands with one option each, carried out one after the
other (`runInTurn`).  The one command performs its tasks in one session; each of the others opens a
session of its own on the files that the one before it has left.  A task done in two sessions that
are `Paired` leaves them so (`Paired.perform`), and the session of the one command is at every task
paired with the one that the single command opens (`runArguments_of_perform`).  The induction over
the tasks is `performAll_inTurn`.

What all of this needs of the directory is that nothing comes to light in it when the directories on
the way to it are made; `runArguments_ne_runInTurn_hidden` shows what happens otherwise.
-/

namespace Abacus

/-! ### What a task reports and notes -/

namespace CommandLine.Task

/-- The errors that a task notes by itself: one for a file that it fails on. -/
def ownErrors (r : Report) : Task → ℕ
  | .file _ => r.status
  | _       => 0

variable [SevenZip]

/-- Every status is zero or one. -/
theorem status_le {t : Task} {s s₁ : Session} {d d₁ : Desk} {r : Report}
    (hrun : (t.perform s).runAt d = (.ok (r, s₁), d₁)) : r.status ≤ 1 := by
  cases t with
  | precision p =>
      rw [runAt_perform_of_changed rfl] at hrun
      cases hrun
      exact Nat.zero_le 1
  | theme t =>
      rw [runAt_perform_of_changed rfl] at hrun
      cases hrun
      exact Nat.zero_le 1
  | file p =>
      rw [runAt_perform_file] at hrun
      split at hrun <;> cases hrun
      · exact Nat.zero_le 1
      · exact le_rfl
  | expression x =>
      obtain ⟨o, text, s', d', hevaluate, -⟩ := s.exists_evaluate x d
      rw [runAt_perform_expression hevaluate] at hrun
      cases hrun
      show (if o.isOk then 0 else 1) ≤ 1
      split <;> decide
  | history n =>
      rw [runAt_perform_history] at hrun
      cases hrun
      exact Nat.zero_le 1

/-- If a file is the only one to note its own error, the run over it has noted none. -/
theorem errors_run_of_file {p : Path} {s s₁ : Session} {d d₁ : Desk} {r : Report}
    (hrun : ((file p).perform s).runAt d = (.ok (r, s₁), d₁))
    (herrors : d₁.errors = d.errors + r.status) :
    ((Batch.run s p).runAt d).2.errors = d.errors := by
  rw [runAt_perform_file] at hrun
  split at hrun <;> rename_i hbatch <;> cases hrun <;> rw [hbatch]
  · exact herrors
  · rw [Desk.errors_noted_error] at herrors
    exact Nat.succ.inj herrors

end CommandLine.Task

/-! ### A task in two sessions -/

open CommandLine

namespace Paired
variable [SevenZip] {directory : Path} {t₀ : FileTree} {s m s₁ m₁ : Session} {d e d₁ e₁ : Desk}

/-- A file is worked on in both alike. -/
theorem performFile (h : Paired directory t₀ s d m e) (p : Path) {r : Report}
    (hrun : ((Task.file p).perform s).runAt d = (.ok (r, s₁), d₁))
    (herrors : d₁.errors = d.errors + r.status) :
    ∃ m₁ e₁, ((Task.file p).perform m).runAt e = (.ok (r, m₁), e₁) ∧
      Paired directory t₀ s₁ d₁ m₁ e₁ := by
  have hquiet := Task.errors_run_of_file hrun herrors
  rw [Task.runAt_perform_file] at hrun ⊢
  rcases h.run p hquiet with ⟨f, d', e', hs, hm, hpaired⟩ | ⟨o, s', d', m', e', hs, hm, hpaired⟩
  · rw [hs] at hrun
    rw [hm]
    cases hrun
    exact ⟨m, _, rfl, hpaired.of_files rfl rfl rfl⟩
  · rw [hs] at hrun
    rw [hm]
    cases hrun
    exact ⟨m', e', rfl, hpaired⟩

/-- A change of preferences is made in both. -/
theorem performChange (h : Paired directory t₀ s d m e) {t : Task} {q : Preferences} {r : Report}
    (hchanged : t.changed? s.preferences.preferences = some q)
    (hrun : (t.perform s).runAt d = (.ok (r, s₁), d₁)) (herrors : d₁.errors = d.errors) :
    ∃ m₁ e₁, (t.perform m).runAt e = (.ok (r, m₁), e₁) ∧ Paired directory t₀ s₁ d₁ m₁ e₁ := by
  have hkept := h.reopens.keptIn
  rw [Task.runAt_perform_of_changed hchanged, hkept.preferences_store] at hrun
  rw [Task.runAt_perform_of_changed (h.akin.preferences ▸ hchanged), h.kept.preferences_store]
  cases hrun
  refine ⟨_, _, rfl, h.afterSave (r := .preferences) (hkept.withPreferences q)
    (h.kept.withPreferences q) ⟨h.akin.buffer, rfl, h.akin.entries⟩ rfl (fun r hr doc hgiven => ?_)
    herrors⟩
  cases r with
  | preferences => exact absurd rfl hr
  | history => exact hgiven

/-- Whatever the task, both runs report the same. -/
theorem perform (h : Paired directory t₀ s d m e) (t : Task) {r : Report}
    (hrun : (t.perform s).runAt d = (.ok (r, s₁), d₁))
    (herrors : d₁.errors = d.errors + t.ownErrors r) :
    ∃ m₁ e₁, (t.perform m).runAt e = (.ok (r, m₁), e₁) ∧ Paired directory t₀ s₁ d₁ m₁ e₁ := by
  cases t with
  | precision p => exact h.performChange rfl hrun herrors
  | theme t => exact h.performChange rfl hrun herrors
  | file p => exact h.performFile p hrun herrors
  | expression x =>
      obtain ⟨o, text, s', d', hevaluate, -⟩ := s.exists_evaluate x d
      rw [Task.runAt_perform_expression hevaluate] at hrun
      cases hrun
      obtain ⟨o', text', s', d', m₁, e₁, hs, hm, hpaired⟩ :=
        h.evaluate x (by rw [hevaluate]; exact herrors)
      cases hevaluate.symm.trans hs
      exact ⟨_, _, Task.runAt_perform_expression hm, hpaired⟩
  | history n =>
      rw [Task.runAt_perform_history] at hrun ⊢
      cases hrun
      have hentries : (s.history.history.recent (some n)).Forall₂ Entry.Akin
          (m.history.history.recent (some n)) := List.forall₂_take _ h.akin.entries
      rw [Entry.lines_of_akin hentries]
      exact ⟨m, e, rfl, h⟩

end Paired

namespace CommandLine

/-! ### Arguments -/

/-- A file that is there for one command is there for the later ones. -/
theorem checkFile_of_grows {t u : FileTree} (h : t.Grows u) {g : Given Path} {p : Option Path}
    (hp : checkFile t g = .ok p) : checkFile u g = .ok p := by
  cases g with
  | absent => exact hp
  | blank => exact hp
  | value q =>
      unfold checkFile at hp ⊢
      cases hfile : t.isFile q with
      | error f => simp [hfile] at hp
      | ok there =>
          cases there with
          | false => simp [hfile] at hp
          | true => simpa [hfile, h.isFile hfile] using hp

/-- Arguments that make a command still make it when the tree has grown. -/
theorem Command.ofArguments_of_grows {t u : FileTree} (h : t.Grows u) {args : List String}
    {c : Command} (hc : ofArguments t args = .ok c) : ofArguments u args = .ok c := by
  unfold ofArguments at hc ⊢
  obtain ⟨r, hr, hc⟩ := Except.bind_eq_ok_iff.mp hc
  rw [hr, Except.ok_bind]
  unfold Request.check at hc ⊢
  cases hfile : checkFile t r.file with
  | ok p =>
      rw [hfile] at hc
      rwa [checkFile_of_grows h hfile]
  | error e => cases e <;> rw [hfile] at hc <;> cases hc

/-! ### Runs of several commands -/

/-- What commands report that are carried out one after the other, each at a desk of its own on the
files that the one before it has left, and the files at the end. -/
def runInTurn [SevenZip] (standard : Path) (t : FileTree) :
    List (Desk × List String) → List (Except RunFailure Report) × FileTree
  | []                 => ([], t)
  | (d, args) :: turns =>
      let (report, after) := (runArguments standard args).runAt { d with files := t }
      let (reports, last) := runInTurn standard after.files turns
      (report :: reports, last)

/-- Whether all saves of the tasks succeed: no error is noted but those that tasks note by
themselves. -/
def Task.allSaved [SevenZip] (s : Session) (d : Desk) : List Task → Bool
  | []      => true
  | t :: ts =>
      match (t.perform s).runAt d with
      | (.ok (r, next), after) =>
          after.errors == d.errors + t.ownErrors r && allSaved next after ts
      | (.error _, _) => false

/-- When everything is saved, the first task has noted no error but its own, and the others are
saved too. -/
theorem Task.exists_of_allSaved_cons [SevenZip] {s : Session} {d : Desk} {t : Task} {ts : List Task}
    (h : allSaved s d (t :: ts)) :
    ∃ r next after, (t.perform s).runAt d = (.ok (r, next), after) ∧
      after.errors = d.errors + t.ownErrors r ∧ allSaved next after ts := by
  rw [allSaved] at h
  split at h
  · rename_i r next after hrun
    rw [Bool.and_eq_true, beq_iff_eq] at h
    exact ⟨r, next, after, hrun, h⟩
  · cases h

section InTurn
variable [SevenZip] {standard directory : Path} {dataDir : Option Path} {t₀ : FileTree}

/-- One task in a session, and the command that asks for it alone on files that are akin. -/
theorem runArguments_of_perform {s s₁ : Session} {d d₁ e : Desk} {u : FileTree} {task : Task}
    {args : List String} {r : Report} (hdirectory : dataDir.getD standard = directory)
    (hreopens : s.Reopens directory d.files) (hgrows : t₀.Grows d.files)
    (hakin : d.files.Akin directory u)
    (hargs : Command.ofArguments t₀ args = .ok (task.command dataDir))
    (htaken : ∀ r ∈ e.refusals, r = none)
    (hrun : (task.perform s).runAt d = (.ok (r, s₁), d₁))
    (herrors : d₁.errors = d.errors + task.ownErrors r) :
    ∃ e₁, (runArguments standard args).runAt { e with files := u } = (.ok r, e₁) ∧
      s₁.Reopens directory d₁.files ∧ t₀.Grows d₁.files ∧ d₁.files.Akin directory e₁.files := by
  obtain ⟨m, hopens, hsm⟩ := hreopens.toOpensOn.exists_akin hakin
  obtain ⟨levels, hopen⟩ := Session.OpensOn.openAt (d := { e with files := u }) hopens
  have hpaired : Paired directory t₀ s d m (({ e with files := u } : Desk).noted levels) :=
    ⟨hreopens, hopens.keptIn, hsm, hakin, hgrows, htaken⟩
  obtain ⟨m₁, e₁, hm, hlast⟩ := hpaired.perform task hrun herrors
  refine ⟨e₁, ?_, hlast.reopens, hlast.grows, hlast.files⟩
  have hopened : Attempt.runAt (ExceptT.adapt RunFailure.ofOpening
      (Session.openAt (some directory))) { e with files := u } =
        (.ok m, ({ e with files := u } : Desk).noted levels) := by
    rw [Attempt.runAt_adapt, hopen]
    rfl
  have hcommand : Command.ofArguments u args = .ok (task.command dataDir) :=
    Command.ofArguments_of_grows (hgrows.trans hakin.grows) hargs
  have hdataDir : (task.command dataDir).dataDir = dataDir := by cases task <;> rfl
  rw [runArguments, Attempt.runAt_bind_of_ok (Attempt.runAt_get _)]
  simp only [hcommand, hdataDir, hdirectory, Command.run_eq, Task.tasks_command]
  rw [Attempt.runAt_bind_of_ok hopened]
  simp only [Task.performAll, bind_assoc, pure_bind]
  rw [Attempt.runAt_bind_of_ok hm]
  simp [Report.joined_singleton]

/-- The tasks in one session, and the commands that ask for them one by one. -/
theorem performAll_inTurn {tasks : List Task} {turns : List (Desk × List String)}
    (hdirectory : dataDir.getD standard = directory)
    (hturns : tasks.Forall₂ (fun task turn =>
      Command.ofArguments t₀ turn.2 = .ok (task.command dataDir) ∧
        ∀ r ∈ turn.1.refusals, r = none) turns) :
    ∀ {s : Session} {d : Desk} {u : FileTree}, s.Reopens directory d.files → t₀.Grows d.files →
      d.files.Akin directory u → Task.allSaved s d tasks →
      ∃ rs s₁ d₁, (Task.performAll s tasks).runAt d = (.ok (rs, s₁), d₁) ∧
        (runInTurn standard u turns).1 = rs.map .ok ∧ (∀ r ∈ rs, r.status ≤ 1) ∧
        d₁.files.Akin directory (runInTurn standard u turns).2 := by
  induction hturns with
  | nil => exact fun {s d u} _ _ hakin _ => ⟨[], s, d, rfl, rfl, nofun, hakin⟩
  | @cons task turn tasks turns hturn _ ih =>
      intro s d u hreopens hgrows hakin hall
      obtain ⟨r, s₁, d₁, hrun, herrors, hsaved⟩ := Task.exists_of_allSaved_cons hall
      obtain ⟨hargs, htaken⟩ := hturn
      obtain ⟨e₁, hsingle, hreopens', hgrows', hakin'⟩ := runArguments_of_perform hdirectory
        hreopens hgrows hakin hargs htaken hrun herrors
      obtain ⟨rs, s₂, d₂, hall, hrest, hstatus, hlast⟩ := ih hreopens' hgrows' hakin' hsaved
      have hcons : runInTurn standard u (turn :: turns) =
          (.ok r :: (runInTurn standard e₁.files turns).1,
            (runInTurn standard e₁.files turns).2) := by
        obtain ⟨e, args⟩ := turn
        rw [runInTurn, hsingle]
      refine ⟨r :: rs, s₂, d₂, ?_, ?_, List.forall_mem_cons.mpr ⟨Task.status_le hrun, hstatus⟩, ?_⟩
      · rw [Task.performAll, Attempt.runAt_bind_of_ok hrun]
        dsimp only
        rw [Attempt.runAt_bind_of_ok hall]
        rfl
      · rw [hcons, hrest]
        rfl
      · rw [hcons]
        exact hlast

end InTurn

/-- **One command does what the commands do that ask for its tasks one by one.**  Where a session
opens, all saves succeed, and the directories that have to be made bring no stored record to light,
carrying out the command of several options prints what the commands of the single options print in
turn, each in a session of its own and at a time of its own, and leaves the same files, but for the
identifiers and times in the history; and its status is one exactly when one of theirs is. -/
theorem runArguments_eq_runInTurn [SevenZip] (standard : Path) (args : List String) (d e : Desk)
    (c : Command) (s : Session) (turns : List (Desk × List String))
    (hargs : Command.ofArguments d.files args = .ok c)
    (hturns : c.tasks.Forall₂ (fun task turn =>
      Command.ofArguments d.files turn.2 = .ok (task.command c.dataDir) ∧
        ∀ r ∈ turn.1.refusals, r = none) turns)
    (hopen : (Session.openAt (some (c.dataDir.getD standard))).runAt d = (.ok s, e))
    (hsaved : Task.allSaved s e c.tasks)
    (hhidden : ∀ r : Record,
      (RecordStore.mk (c.dataDir.getD standard)).document? r.key
          (d.files.makeDirectories (c.dataDir.getD standard)).1 =
        (RecordStore.mk (c.dataDir.getD standard)).document? r.key d.files) :
    ∃ (report : Report) (after : Desk) (reports : List Report),
      (runArguments standard args).runAt d = (.ok report, after) ∧
      (runInTurn standard d.files turns).1 = reports.map .ok ∧
      report.text = String.join (reports.map Report.text) ∧
      (report.status ≤ 1 ∧ (report.status = 1 ↔ ∃ r ∈ reports, r.status = 1)) ∧
      after.files.Akin (c.dataDir.getD standard) (runInTurn standard d.files turns).2 := by
  obtain ⟨levels, rfl⟩ : ∃ levels, e = d.noted levels := by
    obtain ⟨p, levels, -, he, -⟩ := Session.openAt_some_eq_ok hopen
    exact ⟨levels, he⟩
  have hopens := Session.opensOn_of_openAt hopen
  have hreopens : s.Reopens (c.dataDir.getD standard) (d.noted levels).files :=
    ⟨hopens, RecordStore.hidesNothing_of_makeDirectories hopens.isThere hhidden⟩
  obtain ⟨rs, s₁, d₁, hall, hrest, hstatus, hakin⟩ := performAll_inTurn rfl hturns hreopens
    (.refl _) (.refl _ _ _) hsaved
  have hopened : Attempt.runAt (ExceptT.adapt RunFailure.ofOpening
      (Session.openAt (some (c.dataDir.getD standard)))) d = (.ok s, d.noted levels) := by
    rw [Attempt.runAt_adapt, hopen]
    rfl
  refine ⟨Report.joined rs, d₁, rs, ?_, hrest, Report.text_joined rs, Report.status_joined hstatus,
    hakin⟩
  rw [runArguments, Attempt.runAt_bind_of_ok (Attempt.runAt_get d)]
  simp only [hargs, Command.run_eq]
  rw [Attempt.runAt_bind_of_ok hopened, Attempt.runAt_bind_of_ok hall]
  rfl

/-- A file, an expression that fails and the history, with preferences set before, on a fresh
directory. -/
theorem runArguments_eq_runInTurn_fresh :
    let d : Desk := { files := ⟨[(["in.txt"], .file "1/8\n".toUTF8)], []⟩ }
    let args := ["--theme=dark", "-p", "2", "2*", "--file", "in.txt", "--history", "1",
      "--data-dir", "data"]
    let turns : List (Desk × List String) :=
      [({}, ["--data-dir=data", "--precision=2"]), ({}, ["--data-dir=data", "-t", "dark"]),
        ({ lastId := 7 }, ["--data-dir=data", "--file=in.txt"]),
        ({}, ["--data-dir=data", "2*"]), ({}, ["--data-dir=data", "--history=1"])]
    ∃ (report : Report) (after : Desk) (reports : List Report),
      (runArguments ⟨0, []⟩ args).runAt d = (.ok report, after) ∧
      (runInTurn ⟨0, []⟩ d.files turns).1 = reports.map .ok ∧
      report.text = String.join (reports.map Report.text) ∧
      (report.status = 1 ↔ ∃ r ∈ reports, r.status = 1) ∧
      after.files.Akin ⟨0, ["data"]⟩ (runInTurn ⟨0, []⟩ d.files turns).2 := by
  have hopen : (Session.openAt (some ⟨0, ["data"]⟩)).runAt
      { files := ⟨[(["in.txt"], .file "1/8\n".toUTF8)], []⟩ } =
        (.ok ⟨Session.emptyBuffer, ⟨{}, some ⟨⟨0, ["data"]⟩⟩⟩,
          ⟨.ofList History.standardCapacity (by decide) [], some ⟨⟨0, ["data"]⟩⟩⟩⟩,
          ({ files := ⟨[(["in.txt"], .file "1/8\n".toUTF8)], []⟩ } : Desk).noted [.info]) := rfl
  intro d args turns
  obtain ⟨report, after, reports, hrun, hturns, htext, hstatus, hakin⟩ :=
    runArguments_eq_runInTurn ⟨0, []⟩ args d _ ⟨some "2*", some ⟨0, ["in.txt"]⟩,
      some ⟨2, by decide⟩, some .dark, some 1, some ⟨0, ["data"]⟩⟩ _ turns (by decide +kernel)
      (by decide +kernel) hopen (by decide +kernel) (fun r => by cases r <;> rfl)
  exact ⟨report, after, reports, hrun, hturns, htext, hstatus.2, hakin⟩

/-- The way to the records goes through a directory that the first save makes: the history that
stands there is printed by the last of the single commands, but not by the one for all. -/
theorem runArguments_ne_runInTurn_hidden :
    let d : Desk := { files := ⟨[(["data"], .directory), (["data", "mini-calc_history.json"],
      .file ("[\x7b\"id\": \"1\", \"expression\": \"1+1\", \"result\": \"2\", " ++
        "\"timestamp\": \"t\"\x7d]").toUTF8)], []⟩ }
    let c : Command := ⟨none, none, some ⟨3, by decide⟩, none, some 50,
      some ⟨0, ["x", "..", "data"]⟩⟩
    let args := ["--data-dir", "x/../data", "--precision", "3", "--history"]
    let turns : List (Desk × List String) := [({}, ["--data-dir", "x/../data", "--precision", "3"]),
      ({}, ["--data-dir", "x/../data", "--history"])]
    Command.ofArguments d.files args = .ok c ∧
      c.tasks.Forall₂ (fun task turn =>
        Command.ofArguments d.files turn.2 = .ok (task.command c.dataDir) ∧
          ∀ r ∈ turn.1.refusals, r = none) turns ∧
      (∃ s e, (Session.openAt (some ⟨0, ["x", "..", "data"]⟩)).runAt d = (.ok s, e) ∧
        Task.allSaved s e c.tasks) ∧
      ((runArguments ⟨0, []⟩ args).runAt d).1.toOption.map Report.text = some "" ∧
      (runInTurn ⟨0, []⟩ d.files turns).1.map (·.toOption.map Report.text) =
        [some "", some "1+1 = 2\n"] := by
  refine ⟨by decide +kernel, by decide +kernel, ⟨_, _, rfl, by decide +kernel⟩, by decide +kernel,
    by decide +kernel⟩

end CommandLine

end Abacus

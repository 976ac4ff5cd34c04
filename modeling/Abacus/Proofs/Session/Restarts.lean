import Mathlib.Data.List.Pairwise
import Abacus.Proofs.Clock
import Abacus.Proofs.Session.Reopening

/-!
# Abacus — Session — Identifiers over restarts

A run of the program begins with no identifier given out, whatever identifiers its history has from
earlier runs.  Within a run identifiers grow, so the entries of a history are in order of their
identifiers for as long as each run begins at a later millisecond than the last identifiers of the
runs before it (`identifiers_decrease_iff`).  An identifier can be ahead of the clock, when several
are given out in one millisecond; a run that begins before the clock has caught up repeats some of
them (`identifiers_repeat_after_restart`).
-/

namespace Abacus

/-! ### Runs of the program -/

/-- The number that the identifier of an entry writes. -/
def Entry.number (e : Entry) : ℕ :=
  Decimal.ofDigits e.id.toList

/-- The numbers of a session's entries, newest first. -/
def Session.numbers (s : Session) : List ℕ :=
  s.history.history.entries.map Entry.number

/-- The desk where the clock is about to show a moment. -/
def Desk.showing (d : Desk) (us : ℤ) : Desk :=
  { d with clock := ⟨us, 0, 0⟩ }

/-- Texts evaluated one after the other, each at a moment of its own: the sessions after each of
them, and the desk at the end. -/
def Session.evaluateEach (s : Session) (d : Desk) : List (ℤ × String) → List Session × Desk
  | []               => ([], d)
  | (us, x) :: turns =>
      match (s.evaluate x).runAt (d.showing us) with
      | (.ok (_, _, next), after) =>
          let (sessions, last) := next.evaluateEach after turns
          (next :: sessions, last)
      | (.error _, after) => ([], after)

/-- The desk where a run of the program begins: no identifier has been given out, and no error has
been noted. -/
def Desk.starting (t : FileTree) : Desk :=
  { files := t }

/-- A run of the program on the files that are there: its sessions, as it opens and after each
evaluation, and its desk at the end. -/
def programRun (directory : Path) (t : FileTree) (turns : List (ℤ × String)) :
    Except OpenFailure (List Session) × Desk :=
  match (Session.openAt (some directory)).runAt (.starting t) with
  | (.ok s, after)    =>
      let (sessions, last) := s.evaluateEach after turns
      (.ok (s :: sessions), last)
  | (.error f, after) => (.error f, after)

/-- Runs of the program one after the other, each on the files that the one before it has left. -/
def programRuns (directory : Path) (t : FileTree) :
    List (List (ℤ × String)) → List (Except OpenFailure (List Session) × Desk)
  | []            => []
  | turns :: runs =>
      let run := programRun directory t turns
      run :: programRuns directory run.2.files runs

/-- The identifiers that a run of the program gives out. -/
def identifiersOf (turns : List (ℤ × String)) : List ℕ :=
  Identifier.series 0 (turns.map Prod.fst)

/-- A store without records, also when the directories on the way to it have been made. -/
structure RecordStore.IsEmpty (store : RecordStore) (t : FileTree) : Prop where
  absent (r : Record) : t.isThere (store.recordPath r.key) = .ok false
  unhidden (r : Record) :
    (t.makeDirectories store.directory).1.isThere (store.recordPath r.key) = .ok false

/-! ### One evaluation -/

theorem Entry.number_stamped (id : ℕ) (us : ℤ) (expression result : String) :
    (stamped id us expression result).number = id := by
  simp [number, stamped]

namespace Session
variable {directory : Path} {s s₁ : Session} {d d₁ : Desk} {past : List ℕ} {x text : String}
  {o : Outcome}

/-- An evaluation gives out the next identifier, and the session has it in front of its others. -/
theorem numbers_evaluate (hrun : (s.evaluate x).runAt d = (.ok (o, text, s₁), d₁)) :
    d₁.lastId = Identifier.next d.lastId d.clock.now ∧
      s₁.history.history.capacity = s.history.history.capacity ∧
      s₁.numbers = (d₁.lastId :: s.numbers).take s.history.history.capacity := by
  obtain ⟨c, hc⟩ := exists_calculate x
  rw [runAt_evaluate hc] at hrun
  cases hrun
  have hlast : (((d.noted c.notices).stamped.afterSave s.history.store KeptHistory.key
      (s.history.history.push (entryOf d x c.outcome)).toJson)).lastId =
        Identifier.next d.lastId d.clock.now := by
    rw [Desk.lastId_afterSave]
    rfl
  refine ⟨hlast, rfl, ?_⟩
  show List.map Entry.number (List.take s.history.history.capacity _) = _
  rw [List.map_take, List.map_cons, hlast]
  exact congrArg (fun id => List.take _ (id :: _)) (Entry.number_stamped _ _ _ _)

/-- An evaluation that is saved leaves a session that opens again, with one entry more, whose
identifier is the next one. -/
theorem Reopens.evaluate (h : s.Reopens directory d.files)
    (hrun : (s.evaluate x).runAt d = (.ok (o, text, s₁), d₁)) (herrors : d₁.errors = d.errors) :
    s₁.Reopens directory d₁.files ∧ d₁.lastId = Identifier.next d.lastId d.clock.now ∧
      s₁.numbers = (d₁.lastId :: s.numbers).take History.standardCapacity := by
  have hkept := h.keptIn
  obtain ⟨hlast, -, hnumbers⟩ := numbers_evaluate hrun
  rw [hkept.capacity] at hnumbers
  refine ⟨?_, hlast, hnumbers⟩
  obtain ⟨c, hc⟩ := exists_calculate x
  rw [runAt_evaluate hc, hkept.history_store] at hrun
  cases hrun
  have hid : (entryOf d x c.outcome).id ≠ "" := Entry.id_stamped_ne _ _ _ _
  have hnoted : (d.noted c.notices).stamped.errors = d.errors := errors_noted_notices d c
  have hsaved := RecordStore.saved_of_savedAt (Desk.savedAt_of_errors (herrors.trans hnoted.symm))
  rw [(Desk.afterSave_some _ _ _ _).1]
  refine h.saved (r := .history) (hkept.push _ hid) rfl (fun r hr doc hgiven => ?_) hsaved
  cases r with
  | preferences => exact hgiven
  | history => exact absurd rfl hr

/-- The first turn is evaluated at its own time, and the others in the session that it leaves. -/
theorem evaluateEach_cons {us : ℤ}
    (h : (s.evaluate x).runAt (d.showing us) = (.ok (o, text, s₁), d₁))
    (turns : List (ℤ × String)) :
    s.evaluateEach d ((us, x) :: turns) =
      (s₁ :: (s₁.evaluateEach d₁ turns).1, (s₁.evaluateEach d₁ turns).2) := by
  rw [evaluateEach, h]

theorem errors_le_evaluateEach (s : Session) (d : Desk) (turns : List (ℤ × String)) :
    d.errors ≤ (s.evaluateEach d turns).2.errors := by
  induction turns generalizing s d with
  | nil => exact le_rfl
  | cons turn turns ih =>
      obtain ⟨us, x⟩ := turn
      obtain ⟨o, text, s₁, d₁, hrun, hle⟩ := s.exists_evaluate x (d.showing us)
      rw [evaluateEach_cons hrun]
      exact hle.trans (ih s₁ d₁)

/-! ### Runs -/

/-- The entries of a session are the latest of those that have been given identifiers. -/
def Lists (s : Session) (past : List ℕ) : Prop :=
  s.numbers = past.reverse.take History.standardCapacity

/-- The latest identifiers are in order if the last one is greater than those before it, and these
are in order themselves. -/
theorem Lists.pairwise_iff {id : ℕ} (h : s.Lists (past ++ [id])) (hpast : past.Pairwise (· < ·)) :
    s.numbers.Pairwise (· > ·) ↔ (past ++ [id]).Pairwise (· < ·) := by
  rw [h, List.reverse_concat]
  constructor
  · intro hsorted
    obtain ⟨n, hn⟩ : ∃ n, History.standardCapacity = n + 1 + 1 := ⟨98, rfl⟩
    rw [hn, List.take_succ_cons, List.pairwise_cons] at hsorted
    rw [List.pairwise_append]
    refine ⟨hpast, List.pairwise_singleton .., fun a ha b hb => ?_⟩
    rw [List.mem_singleton] at hb
    subst hb
    rcases List.eq_nil_or_concat' past with rfl | ⟨earlier, last, rfl⟩
    · cases ha
    · -- the last of the past is among the entries, and none before it is greater
      rw [List.reverse_concat, List.take_succ_cons] at hsorted
      have hlast : last < b := hsorted.1 last (.head _)
      rcases List.mem_append.mp ha with ha | ha
      · exact ((List.pairwise_append.mp hpast).2.2 a ha last (.head _)).trans hlast
      · rw [List.mem_singleton.mp ha]
        exact hlast
  · intro hall
    have hreverse : (id :: past.reverse).Pairwise (· > ·) := by
      rw [← List.reverse_concat, List.pairwise_reverse]
      exact hall
    exact hreverse.sublist (List.take_sublist _ _)

/-- A session that lists increasing identifiers shows them the last one first. -/
theorem Lists.pairwise (h : s.Lists past) (hpast : past.Pairwise (· < ·)) :
    s.numbers.Pairwise (· > ·) := by
  rw [h]
  have hreverse : past.reverse.Pairwise (· > ·) := List.pairwise_reverse.mpr hpast
  exact hreverse.sublist (List.take_sublist _ _)

/-- What a run of saved evaluations keeps: the session opens again with the latest entries, and
their identifiers have been in order all the time if all that have been given out are in order. -/
theorem Reopens.evaluateEach (h : s.Reopens directory d.files) (hlists : s.Lists past)
    (turns : List (ℤ × String)) (herrors : (s.evaluateEach d turns).2.errors = d.errors) :
    let ids := past ++ Identifier.series d.lastId (turns.map Prod.fst)
    (∃ last : Session, last.Reopens directory (s.evaluateEach d turns).2.files ∧ last.Lists ids) ∧
      (past.Pairwise (· < ·) →
        ((∀ t ∈ (s.evaluateEach d turns).1, t.numbers.Pairwise (· > ·)) ↔
          ids.Pairwise (· < ·))) := by
  induction turns generalizing s d past with
  | nil =>
      simp only [List.map_nil, Identifier.series, List.append_nil, Session.evaluateEach]
      exact ⟨⟨s, h, hlists⟩, fun hpast => ⟨fun _ => hpast, fun _ => List.forall_mem_nil _⟩⟩
  | cons turn turns ih =>
      obtain ⟨us, x⟩ := turn
      obtain ⟨o, text, s₁, d₁, hrun, hle⟩ := s.exists_evaluate x (d.showing us)
      rw [evaluateEach_cons hrun] at herrors ⊢
      -- no error is taken back, so this evaluation has noted none
      have hfirst : d₁.errors = d.errors :=
        le_antisymm (herrors ▸ s₁.errors_le_evaluateEach d₁ turns) hle
      obtain ⟨hreopens, hid, hnumbers⟩ := Reopens.evaluate (d := d.showing us) h hrun hfirst
      have hid : d₁.lastId = Identifier.next d.lastId us := by
        simpa [Desk.showing, Clock.now] using hid
      have hlists₁ : s₁.Lists (past ++ [d₁.lastId]) := by
        obtain ⟨n, hn⟩ : ∃ n, History.standardCapacity = n + 1 := ⟨99, rfl⟩
        rw [Lists, List.reverse_concat, hnumbers, hlists, hn, List.take_succ_cons,
          List.take_succ_cons, List.take_take, Nat.min_eq_left n.le_succ]
      have hids : past ++ Identifier.series d.lastId (((us, x) :: turns).map Prod.fst) =
          past ++ [d₁.lastId] ++ Identifier.series d₁.lastId (turns.map Prod.fst) := by
        rw [hid, List.append_assoc]
        rfl
      obtain ⟨hlast, hordered⟩ := ih hreopens hlists₁ (herrors.trans hfirst.symm)
      simp only [hids]
      refine ⟨hlast, fun hpast => ?_⟩
      rw [List.forall_mem_cons, hlists₁.pairwise_iff hpast]
      constructor
      · rintro ⟨hnow, hlater⟩
        exact (hordered hnow).mp hlater
      · intro hall
        have hnow := (List.pairwise_append.mp hall).1
        exact ⟨hnow, (hordered hnow).mpr hall⟩

end Session

section Programs
variable {directory : Path} {t : FileTree} {s : Session} {past : List ℕ}

/-- On files that can be opened, a run of the program is its evaluations in turn. -/
theorem programRun_of_opensOn (h : s.OpensOn directory t) (turns : List (ℤ × String)) :
    ∃ levels, programRun directory t turns =
      (.ok (s :: (s.evaluateEach ((Desk.starting t).noted levels) turns).1),
        (s.evaluateEach ((Desk.starting t).noted levels) turns).2) := by
  obtain ⟨levels, hopen⟩ := Session.OpensOn.openAt (d := .starting t) h
  exact ⟨levels, by rw [programRun, hopen]⟩

/-- What runs of the program keep in which all saves succeed: every one of them opens, and the
identifiers in the history have been in order all the time if all that have been given out are in
order. -/
theorem programRuns_of_reopens (h : s.Reopens directory t) (hlists : s.Lists past)
    (runs : List (List (ℤ × String)))
    (hsaved : ∀ run ∈ programRuns directory t runs, run.2.errors = 0) :
    ∃ sessions : List (List Session),
      (programRuns directory t runs).map Prod.fst = sessions.map .ok ∧
      (past.Pairwise (· < ·) →
        ((∀ s ∈ sessions.flatten, s.numbers.Pairwise (· > ·)) ↔
          (past ++ runs.flatMap identifiersOf).Pairwise (· < ·))) := by
  induction runs generalizing t s past with
  | nil => exact ⟨[], rfl, fun hpast => by simpa using hpast⟩
  | cons turns runs ih =>
      obtain ⟨levels, hrun⟩ := programRun_of_opensOn h.toOpensOn turns
      rw [programRuns, hrun] at hsaved ⊢
      obtain ⟨hnow, hlater⟩ := List.forall_mem_cons.mp hsaved
      have hstart : ((Desk.starting t).noted levels).errors = 0 :=
        Nat.le_zero.mp ((s.errors_le_evaluateEach _ turns).trans_eq hnow)
      obtain ⟨⟨last, hlast, hlists'⟩, hordered⟩ := Session.Reopens.evaluateEach
        (d := (Desk.starting t).noted levels) h hlists turns (hnow.trans hstart.symm)
      obtain ⟨sessions, hsessions, hrest⟩ := ih hlast hlists' hlater
      refine ⟨(s :: (s.evaluateEach _ turns).1) :: sessions, congrArg (_ :: ·) hsessions,
        fun hpast => ?_⟩
      have hids : past ++ (turns :: runs).flatMap identifiersOf =
          past ++ identifiersOf turns ++ runs.flatMap identifiersOf := by
        rw [List.flatMap_cons, List.append_assoc]
      rw [List.flatten_cons, List.forall_mem_append, List.forall_mem_cons, hids]
      constructor
      · rintro ⟨⟨-, hhere⟩, hthere⟩
        exact (hrest ((hordered hpast).mp hhere)).mp hthere
      · intro hall
        have hhere := (List.pairwise_append.mp hall).1
        exact ⟨⟨hlists.pairwise hpast, (hordered hpast).mpr hhere⟩, (hrest hhere).mpr hall⟩

/-- On an empty store a session without entries opens. -/
theorem RecordStore.IsEmpty.exists_reopens (h : (RecordStore.mk directory).IsEmpty t) :
    ∃ s : Session, s.Reopens directory t ∧ s.Lists [] := by
  have hnone (r : Record) : (RecordStore.mk directory).document? r.key t = none :=
    document?_of_not_there (h.absent r)
  refine ⟨⟨Session.emptyBuffer, ⟨{}, some ⟨directory⟩⟩,
    ⟨.ofList History.standardCapacity History.standardCapacity_pos [], some ⟨directory⟩⟩⟩,
    ⟨⟨rfl, rfl, rfl, fun r => ?_, fun r => ⟨false, h.absent r⟩⟩, ?_⟩, rfl⟩
  · rw [hnone r]
    cases r with
    | preferences => exact ⟨.inr ⟨rfl, nofun⟩, nofun⟩
    | history => rfl
  · refine hidesNothing_of_makeDirectories (fun r => ⟨false, h.absent r⟩) fun r => ?_
    rw [hnone r]
    exact document?_of_not_there (h.unhidden r)

/-- All identifiers are in order if each run begins after those of the runs before it. -/
theorem pairwise_identifiersOf_iff {runs : List (List (ℤ × String))} :
    (runs.flatMap identifiersOf).Pairwise (· < ·) ↔
      runs.Pairwise fun earlier later => ∀ turn ∈ later.head?, ∀ id ∈ identifiersOf earlier,
        id < Identifier.next 0 turn.1 := by
  have hwithin : ∀ turns ∈ runs, (identifiersOf turns).Pairwise (· < ·) :=
    fun _ _ => Identifier.pairwise_series ..
  rw [List.pairwise_flatMap, and_iff_right hwithin]
  refine List.Pairwise.iff fun earlier later => ?_
  constructor
  · intro h turn hturn id hid
    refine Identifier.forall_lt_series_iff.mp (h id hid) turn.1 ?_
    rw [List.head?_map, Option.mem_def.mp hturn]
    rfl
  · intro h id hid
    refine Identifier.forall_lt_series_iff.mpr fun us hus => ?_
    rw [List.head?_map] at hus
    obtain ⟨turn, hturn, rfl⟩ := Option.map_eq_some_iff.mp hus
    exact h turn hturn id hid

end Programs

/-- **The identifiers of a history decrease for as long as every run of the program begins after
them.**  Let the program be run any number of times on a directory without records, each time
evaluating any texts at any moments, and let all saves succeed.  Then every run opens, and the
entries of the history have all the time been listed with strictly decreasing identifiers, newest
first, exactly when of any two runs the later one begins at a millisecond, or at the first one for
earlier moments, that is greater than all identifiers of the earlier one. -/
theorem identifiers_decrease_iff (directory : Path) (t : FileTree)
    (runs : List (List (ℤ × String))) (hempty : (RecordStore.mk directory).IsEmpty t)
    (hsaved : ∀ run ∈ programRuns directory t runs, run.2.errors = 0) :
    ∃ sessions : List (List Session),
      (programRuns directory t runs).map Prod.fst = sessions.map .ok ∧
      ((∀ s ∈ sessions.flatten, s.numbers.Pairwise (· > ·)) ↔
        runs.Pairwise fun earlier later => ∀ turn ∈ later.head?, ∀ id ∈ identifiersOf earlier,
          id < max (Identifier.millis turn.1).toNat 1) := by
  obtain ⟨s, hreopens, hlists⟩ := hempty.exists_reopens
  obtain ⟨sessions, hopened, hordered⟩ := programRuns_of_reopens hreopens hlists runs hsaved
  refine ⟨sessions, hopened, (hordered .nil).trans ?_⟩
  rw [List.nil_append]
  exact pairwise_identifiersOf_iff

/-- A text in each of two runs, the second one two milliseconds later. -/
theorem identifiers_decrease_over_two_runs :
    let runs := [[(1000000, "1")], [(1002000, "2")]]
    let t : FileTree := ⟨[], []⟩
    (RecordStore.mk ⟨0, ["data"]⟩).IsEmpty t ∧
      (∀ run ∈ programRuns ⟨0, ["data"]⟩ t runs, run.2.errors = 0) ∧
      ∃ sessions : List (List Session),
        (programRuns ⟨0, ["data"]⟩ t runs).map Prod.fst = sessions.map .ok ∧
        ∀ s ∈ sessions.flatten, s.numbers.Pairwise (· > ·) := by
  intro runs t
  have hempty : (RecordStore.mk ⟨0, ["data"]⟩).IsEmpty t :=
    ⟨fun r => by cases r <;> decide +kernel, fun r => by cases r <;> decide +kernel⟩
  have hsaved : ∀ run ∈ programRuns ⟨0, ["data"]⟩ t runs, run.2.errors = 0 := by decide +kernel
  obtain ⟨sessions, hopened, hordered⟩ := identifiers_decrease_iff _ t runs hempty hsaved
  exact ⟨hempty, hsaved, sessions, hopened, hordered.mpr (by decide +kernel)⟩

/-- Two texts in one millisecond, and a run that begins in the next one: the clock goes on, all
saves succeed, and the history has one identifier twice. -/
theorem identifiers_repeat_after_restart :
    let runs := [[(1000000, "1"), (1000000, "2")], [(1001500, "3")]]
    let t : FileTree := ⟨[], []⟩
    (runs.flatten.map Prod.fst).Pairwise (· ≤ ·) ∧
      (RecordStore.mk ⟨0, ["data"]⟩).IsEmpty t ∧
      (programRuns ⟨0, ["data"]⟩ t runs).map (fun run => (run.2.errors,
        (run.1.toOption.bind List.getLast?).map fun s => s.history.history.entries.map Entry.id)) =
          [(0, some ["1001", "1000"]), (0, some ["1001", "1001", "1000"])] := by
  refine ⟨by decide, ⟨fun r => ?_, fun r => ?_⟩, by decide +kernel⟩
  · cases r <;> decide +kernel
  · cases r <;> decide +kernel

end Abacus

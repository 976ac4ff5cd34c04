import Abacus.Proofs.History
import Abacus.Proofs.Session.Calls
import Abacus.Proofs.Session.Opening

/-!
# Abacus — Session — Runs, and opening again

A run is a list of calls performed one after the other.  What it shows, the answers and the buffer,
the preferences and the entries after each of them, does not depend on the files: two sessions that
agree show the same, whether they are kept in memory or on a device that refuses any of the saves
(`Alike.run`).  And after a run whose last saves of both records succeeded the files hold what the
session holds (`Session.KeptIn.run`), which is what a session opens on (`Session.OpensOn`), so one
that is opened again is as the last one was left (`run_alike_and_reopened`).
-/

namespace Abacus

/-! ### Calls -/

/-- What can be asked of a session.  An evaluation takes the buffer unless a text is given. -/
inductive Call where
  | append (text : String)
  | backspace
  | clear
  | percent
  | evaluate (text : Option String)
  | chooseTheme (v : Json)
  | switchTheme
  | choosePrecision (v : Json)

/-- What a call answers.  The calls that answer with the buffer or with a preference they have
changed show it in the session they leave. -/
inductive Reply where
  | done
  | outcome (o : Outcome)
  | evaluated (o : Outcome) (text : String)
  | refused (f : PreferencesFailure)
  | stopped (stop : Stop)

namespace Session

/-- The session with changed preferences, or as it was if the change is refused. -/
def changing (s : Session) (change : Attempt PreferencesFailure KeptPreferences) :
    Work (Reply × Session) := do
  match ← change.run with
  | .ok k    => return (.done, { s with preferences := k })
  | .error f => return (.refused f, s)

def perform (s : Session) : Call → Work (Reply × Session)
  | .append text       => return (.done, s.append text)
  | .backspace         => return (.done, s.backspace)
  | .clear             => return (.done, s.clear)
  | .percent           => do
      match ← s.percent.run with
      | .ok (o, next) => return (.outcome o, next)
      | .error stop   => return (.stopped stop, s)
  | .evaluate text     => do
      match ← (s.evaluate (text.getD s.buffer)).run with
      | .ok (o, shown, next) => return (.evaluated o shown, next)
      | .error stop          => return (.stopped stop, s)
  | .chooseTheme v     => s.changing (s.preferences.chooseTheme v)
  | .switchTheme       => s.changing s.preferences.switchTheme
  | .choosePrecision v => s.changing (s.preferences.choosePrecision v)

end Session

/-! ### Runs -/

/-- A call that has been performed: its answer, the session it leaves, and the notices written
meanwhile. -/
structure Step where
  call : Call
  reply : Reply
  session : Session
  notices : List Level

/-- What can be seen of a step: the answer, and the buffer, the preferences and the entries after
it. -/
structure Shown where
  reply : Reply
  buffer : String
  preferences : Preferences
  entries : List Entry

def Step.shown (t : Step) : Shown :=
  ⟨t.reply, t.session.buffer, t.session.preferences.preferences, t.session.history.history.entries⟩

/-- The step of a call from a session at a desk, and the desk after it. -/
def Session.step (s : Session) (d : Desk) (c : Call) : Step × Desk :=
  let ((reply, next), after) := (s.perform c).runAt d
  (⟨c, reply, next, after.notices.drop d.notices.length⟩, after)

/-- Calls performed one after the other: their steps, and the session and the desk at the end. -/
def Session.run (s : Session) (d : Desk) : List Call → List Step × Session × Desk
  | []      => ([], s, d)
  | c :: cs =>
      let (t, after) := s.step d c
      let (ts, last) := t.session.run after cs
      (t :: ts, last)

/-- The two records that a session keeps. -/
inductive Record where
  | preferences
  | history
  deriving DecidableEq

/-- The record that a step saves: a change of preferences that is not refused saves these, an
evaluation the history. -/
def Step.record? (t : Step) : Option Record :=
  match t.call, t.reply with
  | .chooseTheme _, .done | .switchTheme, .done | .choosePrecision _, .done => some .preferences
  | .evaluate _, .evaluated .. => some .history
  | _, _ => none

/-- Whether a step saves a record, and if it does, whether the save succeeds.  One that fails is
noted as an error, and nothing else is. -/
def Step.saved? (r : Record) (t : Step) : Option Bool :=
  if t.record? = some r then some (!t.notices.contains .error) else none

/-- How the last save of a record went, if there was one. -/
def lastSaved? (r : Record) (ts : List Step) : Option Bool :=
  (ts.filterMap (·.saved? r)).getLast?

/-! ### What each call does -/

namespace Session
variable {s : Session} {d : Desk}

/-- A change of the preferences is saved if it is valid, and otherwise refused. -/
theorem runAt_changing (s : Session) (k : KeptPreferences)
    (next : Except PreferencesFailure Preferences) (d : Desk) :
    (s.changing (k.change next)).runAt d =
      match next with
      | .ok p    => ((.done, { s with preferences := { k with preferences := p } }),
          d.afterSave k.store KeptPreferences.key p.toJson)
      | .error f => ((.refused f, s), d) := by
  rw [changing, Work.runAt_bind]
  show Work.runAt (match ((k.change next).runAt d).1 with
    | .ok k    => pure (Reply.done, { s with preferences := k })
    | .error f => pure (Reply.refused f, s)) ((k.change next).runAt d).2 = _
  rw [KeptPreferences.runAt_change]
  cases next <;> rfl

theorem runAt_perform_percent {c : Calculation}
    (h : Abacus.calculate .arithmetic s.buffer = .ok c) :
    (s.perform .percent).runAt d =
      ((.outcome (s.scaled c.outcome).1, (s.scaled c.outcome).2), d.noted c.notices) := by
  rw [perform, Work.runAt_bind]
  show Work.runAt (match (s.percent.runAt d).1 with
    | .ok (o, next) => pure (Reply.outcome o, next)
    | .error stop   => pure (Reply.stopped stop, s)) (s.percent.runAt d).2 = _
  rw [runAt_percent h]
  rfl

theorem runAt_perform_evaluate {text : Option String} {c : Calculation}
    (h : Abacus.calculate .arithmetic (text.getD s.buffer) = .ok c) :
    (s.perform (.evaluate text)).runAt d =
      let history := s.history.history.push (entryOf d (text.getD s.buffer) c.outcome)
      ((.evaluated c.outcome (s.display c.outcome),
          { s with history := { s.history with history := history } }),
        (d.noted c.notices).stamped.afterSave s.history.store KeptHistory.key history.toJson) := by
  rw [perform, Work.runAt_bind]
  show Work.runAt (match ((s.evaluate (text.getD s.buffer)).runAt d).1 with
    | .ok (o, shown, next) => pure (Reply.evaluated o shown, next)
    | .error stop          => pure (Reply.stopped stop, s))
      ((s.evaluate (text.getD s.buffer)).runAt d).2 = _
  rw [runAt_evaluate h]
  rfl

end Session

/-! ### Sessions that agree -/

/-- Two sessions that agree in all but where they are kept. -/
structure Session.Alike (s m : Session) : Prop where
  buffer : s.buffer = m.buffer
  preferences : s.preferences.preferences = m.preferences.preferences
  history : s.history.history = m.history.history

/-- Two desks at which the clock and the identifiers go on alike. -/
structure Desk.SameTime (d e : Desk) : Prop where
  clock : d.clock = e.clock
  lastId : d.lastId = e.lastId

theorem Desk.SameTime.afterSave {d e : Desk} (h : d.SameTime e) (st su : Option RecordStore)
    (key key' : String) (doc doc' : Json) :
    (d.afterSave st key doc).SameTime (e.afterSave su key' doc') :=
  ⟨by simpa using h.clock, by simpa using h.lastId⟩

namespace Session.Alike
variable {s m : Session} {d e : Desk}

/-- Two sessions that are alike change alike. -/
theorem changing (h : s.Alike m) (hd : d.SameTime e)
    {next next' : Except PreferencesFailure Preferences} (hnext : next = next') :
    let r := (s.changing (s.preferences.change next)).runAt d
    let q := (m.changing (m.preferences.change next')).runAt e
    r.1.1 = q.1.1 ∧ r.1.2.Alike q.1.2 ∧ r.2.SameTime q.2 := by
  subst hnext
  simp only [runAt_changing]
  cases next with
  | ok p => exact ⟨rfl, ⟨h.buffer, rfl, h.history⟩, hd.afterSave ..⟩
  | error f => exact ⟨rfl, h, hd⟩

/-- Sessions that agree answer alike, and agree afterwards. -/
theorem perform (h : s.Alike m) (hd : d.SameTime e) (c : Call) :
    let r := (s.perform c).runAt d
    let q := (m.perform c).runAt e
    r.1.1 = q.1.1 ∧ r.1.2.Alike q.1.2 ∧ r.2.SameTime q.2 := by
  cases c with
  | append text => exact ⟨rfl, ⟨congrArg (appended · text) h.buffer, h.preferences, h.history⟩, hd⟩
  | backspace => exact ⟨rfl, ⟨congrArg shortened h.buffer, h.preferences, h.history⟩, hd⟩
  | clear => exact ⟨rfl, ⟨rfl, h.preferences, h.history⟩, hd⟩
  | percent =>
      obtain ⟨c, hc⟩ := exists_calculate s.buffer
      rw [runAt_perform_percent hc, runAt_perform_percent (h.buffer ▸ hc)]
      unfold scaled
      cases c.outcome.result with
      | ok v => exact ⟨rfl, ⟨rfl, h.preferences, h.history⟩, ⟨hd.clock, hd.lastId⟩⟩
      | error k => exact ⟨rfl, h, ⟨hd.clock, hd.lastId⟩⟩
  | evaluate text =>
      obtain ⟨c, hc⟩ := exists_calculate (text.getD s.buffer)
      rw [runAt_perform_evaluate hc, runAt_perform_evaluate (h.buffer ▸ hc)]
      have hentry : entryOf d (text.getD s.buffer) c.outcome =
          entryOf e (text.getD m.buffer) c.outcome := by
        simp only [entryOf, hd.clock, hd.lastId, h.buffer]
      refine ⟨?_, ⟨h.buffer, h.preferences, ?_⟩, Desk.SameTime.afterSave ?_ ..⟩
      · simp only [display, h.preferences]
      · simp only [h.history, hentry]
      · exact ⟨congrArg Clock.next hd.clock, by
          simp only [Desk.stamped, Desk.clock_noted, Desk.lastId_noted, hd.clock, hd.lastId]⟩
  | chooseTheme v => exact h.changing hd (congrArg (·.chooseTheme v) h.preferences)
  | switchTheme => exact h.changing hd (congrArg (.ok ·.switchTheme) h.preferences)
  | choosePrecision v => exact h.changing hd (congrArg (·.choosePrecision v) h.preferences)

/-- Runs of sessions that agree show the same. -/
theorem run (h : s.Alike m) (hd : d.SameTime e) (cs : List Call) :
    (s.run d cs).1.map Step.shown = (m.run e cs).1.map Step.shown := by
  induction cs generalizing s m d e with
  | nil => rfl
  | cons c cs ih =>
      obtain ⟨hreply, halike, htime⟩ := h.perform hd c
      have hshown : (s.step d c).1.shown = (m.step e c).1.shown := by
        simp only [Session.step, Step.shown, hreply, halike.buffer, halike.preferences,
          halike.history]
      rw [Session.run, Session.run, List.map_cons, List.map_cons, hshown]
      exact congrArg (_ :: ·) (ih halike htime)

end Session.Alike

/-! ### What the files hold -/

namespace Record

def key : Record → String
  | .preferences => KeptPreferences.key
  | .history     => KeptHistory.key

/-- The document that a session keeps in a record. -/
def document (s : Session) : Record → Json
  | .preferences => s.preferences.preferences.toJson
  | .history     => s.history.history.toJson

/-- The records of a session have files of their own. -/
theorem fileName_key_ne {r q : Record} (h : r ≠ q) :
    RecordStore.fileName r.key ≠ RecordStore.fileName q.key := by
  cases r <;> cases q <;> first | exact absurd rfl h | decide

theorem readsBack_document (s : Session) (r : Record) : (r.document s).ReadsBack := by
  cases r with
  | preferences => exact s.preferences.preferences.readsBack_toJson
  | history => exact s.history.history.readsBack_toJson

end Record

/-- A session that is kept in one store and can be read from its records again. -/
structure Session.KeptIn (s : Session) (store : RecordStore) : Prop where
  preferences_store : s.preferences.store = some store
  history_store : s.history.store = some store
  capacity : s.history.history.capacity = History.standardCapacity
  id_ne : ∀ e ∈ s.history.history.entries, e.id ≠ ""

/-- What a step does to the records: one that it saves is saved from the files as they were, with
the success that the notices report, and one that it does not save stays as it was, in the session
and in the files. -/
def Step.Keeps (store : RecordStore) (s : Session) (d : Desk) (t : Step) (after : Desk) : Prop :=
  ∀ r : Record, match t.saved? r with
    | some done => ∃ before : Desk, before.files = d.files ∧ before.refusals = d.refusals ∧
        (store.save r.key (r.document t.session)).runAt before = (done, after)
    | none => r.document t.session = r.document s ∧
        ∀ doc, store.Holds r.key doc d.files → store.Holds r.key doc after.files

namespace Step
variable {store : RecordStore} {s next : Session} {d : Desk} {c : Call} {reply : Reply}

/-- After a step, a record holds what was saved in it, or what it held before if nothing was. -/
theorem Keeps.holds {t : Step} {after : Desk} (h : t.Keeps store s d after) (r : Record) :
    (t.saved? r = some true → store.Holds r.key (r.document t.session) after.files) ∧
    (t.saved? r = none → store.Holds r.key (r.document s) d.files →
      store.Holds r.key (r.document t.session) after.files) := by
  have hr := h r
  refine ⟨fun hsaved => ?_, fun hnone hheld => ?_⟩
  · rw [hsaved] at hr
    obtain ⟨before, -, -, hrun⟩ := hr
    obtain ⟨files, done, hsave, hdone, -⟩ :=
      store.runAt_save r.key (r.document t.session) before
    rw [hrun] at hsave
    obtain ⟨rfl, rfl⟩ := Prod.mk.inj hsave
    exact hdone rfl
  · rw [hnone] at hr
    rw [hr.1]
    exact hr.2 _ hheld

/-- A step that saves one record, after notices of no error. -/
theorem keeps_of_save {q : Record} {before : Desk} (levels : List Level)
    (hrecord : ∀ levels, (⟨c, reply, next, levels⟩ : Step).record? = some q)
    (hfiles : before.files = d.files) (hrefusals : before.refusals = d.refusals)
    (hnotices : before.notices = d.notices ++ levels) (hlevels : .error ∉ levels)
    (hdocument : ∀ r ≠ q, Record.document next r = Record.document s r) :
    let after := before.afterSave (some store) q.key (q.document next)
    (⟨c, reply, next, after.notices.drop d.notices.length⟩ : Step).Keeps store s d after := by
  obtain ⟨files, done, hrun, -, hothers⟩ := store.runAt_save q.key (q.document next) before
  intro after r
  have hafter : after = ((store.save q.key (q.document next)).runAt before).2 := rfl
  rw [hrun] at hafter
  have hlast : after.notices.drop d.notices.length = levels ++ if done then [] else [.error] := by
    simp only [hafter, hnotices, List.append_assoc, List.drop_left]
  rw [saved?, hrecord]
  by_cases hr : r = q
  · subst hr
    have : (!(after.notices.drop d.notices.length).contains Level.error) = done := by
      rw [hlast]
      cases done <;> simp [hlevels]
    rw [if_pos rfl, this]
    exact ⟨before, hfiles, hrefusals, hrun.trans (by rw [hafter])⟩
  · rw [if_neg (by simpa using Ne.symm hr)]
    rw [hafter]
    exact ⟨hdocument r hr, fun doc hheld =>
      hothers _ _ (Record.fileName_key_ne hr) (hfiles ▸ hheld)⟩

end Step

theorem Entry.id_stamped_ne (id : ℕ) (us : ℤ) (expression result : String) :
    (stamped id us expression result).id ≠ "" := by
  intro h
  have : Decimal.digitsOf id = [] := by simpa [stamped] using h
  exact Decimal.digitsOf_ne_nil id this

namespace Session.KeptIn
variable {store : RecordStore} {s : Session} {d : Desk}

/-- A step that saves nothing and leaves the preferences and the entries alone. -/
theorem of_quiet (h : s.KeptIn store) {c : Call} {reply : Reply} {next : Session}
    {levels : List Level} {after : Desk}
    (hrecord : (⟨c, reply, next, levels⟩ : Step).record? = none)
    (hpreferences : next.preferences = s.preferences) (hhistory : next.history = s.history)
    (hfiles : after.files = d.files) :
    next.KeptIn store ∧ (⟨c, reply, next, levels⟩ : Step).Keeps store s d after := by
  refine ⟨⟨?_, ?_, ?_, ?_⟩, fun r => ?_⟩
  · rw [hpreferences, h.preferences_store]
  · rw [hhistory, h.history_store]
  · rw [hhistory, h.capacity]
  · rw [hhistory]
    exact h.id_ne
  · rw [Step.saved?, hrecord, if_neg nofun]
    refine ⟨?_, fun _ hheld => hfiles ▸ hheld⟩
    cases r with
    | preferences => exact congrArg (fun k : KeptPreferences => k.preferences.toJson) hpreferences
    | history => exact congrArg (fun k : KeptHistory => k.history.toJson) hhistory

/-- A change of the preferences keeps the records as every call does. -/
theorem changing (h : s.KeptIn store) (d : Desk) {c : Call}
    (next : Except PreferencesFailure Preferences)
    (hperform : s.perform c = s.changing (s.preferences.change next))
    (hdone : ∀ s' levels, (⟨c, .done, s', levels⟩ : Step).record? = some .preferences)
    (hrefused : ∀ f s' levels, (⟨c, .refused f, s', levels⟩ : Step).record? = none) :
    (s.step d c).1.session.KeptIn store ∧
      (s.step d c).1.Keeps store s d (s.step d c).2 := by
  rw [Session.step, hperform, runAt_changing]
  cases next with
  | ok p =>
      simp only [h.preferences_store]
      refine ⟨⟨rfl, h.history_store, h.capacity, h.id_ne⟩, ?_⟩
      refine Step.keeps_of_save (q := .preferences) [] (hdone _) rfl rfl
        (by simp) List.not_mem_nil fun r hr => ?_
      cases r with
      | preferences => exact absurd rfl hr
      | history => rfl
  | error f => exact h.of_quiet (hrefused f _ _) rfl rfl rfl

/-- What every call keeps. -/
theorem step (h : s.KeptIn store) (d : Desk) (c : Call) :
    (s.step d c).1.session.KeptIn store ∧
      (s.step d c).1.Keeps store s d (s.step d c).2 := by
  cases c with
  | append text => exact h.of_quiet rfl rfl rfl rfl
  | backspace => exact h.of_quiet rfl rfl rfl rfl
  | clear => exact h.of_quiet rfl rfl rfl rfl
  | percent =>
      obtain ⟨c, hc⟩ := exists_calculate s.buffer
      rw [Session.step, runAt_perform_percent hc]
      have hscaled : (s.scaled c.outcome).2.preferences = s.preferences ∧
          (s.scaled c.outcome).2.history = s.history := by
        unfold scaled
        cases c.outcome.result <;> exact ⟨rfl, rfl⟩
      exact h.of_quiet rfl hscaled.1 hscaled.2 rfl
  | evaluate text =>
      obtain ⟨c, hc⟩ := exists_calculate (text.getD s.buffer)
      rw [Session.step, runAt_perform_evaluate hc]
      simp only [h.history_store]
      refine ⟨⟨h.preferences_store, rfl, h.capacity, fun e he => ?_⟩, ?_⟩
      · rcases List.mem_cons.mp (List.mem_of_mem_take he) with rfl | he
        · exact Entry.id_stamped_ne _ _ _ _
        · exact h.id_ne e he
      · refine Step.keeps_of_save (q := .history) c.notices (fun _ => rfl) rfl rfl rfl
          c.error_not_mem_notices fun r hr => ?_
        cases r with
        | preferences => rfl
        | history => exact absurd rfl hr
  | chooseTheme v => exact h.changing d _ rfl (fun _ _ => rfl) (fun _ _ _ => rfl)
  | switchTheme => exact h.changing d (.ok _) rfl (fun _ _ => rfl) (fun _ _ _ => rfl)
  | choosePrecision v => exact h.changing d _ rfl (fun _ _ => rfl) (fun _ _ _ => rfl)

end Session.KeptIn

/-- The last save of a run is in the steps that follow, if they save at all. -/
theorem lastSaved?_cons (r : Record) (t : Step) (ts : List Step) :
    lastSaved? r (t :: ts) = (lastSaved? r ts).or (t.saved? r) := by
  unfold lastSaved?
  cases h : t.saved? r with
  | none => rw [List.filterMap_cons_none h, Option.or_none]
  | some b =>
      rw [List.filterMap_cons_some h, List.getLast?_cons]
      cases (ts.filterMap (·.saved? r)).getLast? <;> rfl

namespace Session.KeptIn
variable {store : RecordStore} {s : Session} {d : Desk}

/-- After a run the files hold each record whose last save succeeded, or that was there before and
has not been saved. -/
theorem run (h : s.KeptIn store) (d : Desk) (cs : List Call) :
    (s.run d cs).2.1.KeptIn store ∧
      ∀ r : Record, (lastSaved? r (s.run d cs).1 = some true ∨
          lastSaved? r (s.run d cs).1 = none ∧ store.Holds r.key (r.document s) d.files) →
        store.Holds r.key (r.document (s.run d cs).2.1) (s.run d cs).2.2.files := by
  induction cs generalizing s d with
  | nil => exact ⟨h, fun r hr => hr.elim nofun And.right⟩
  | cons c cs ih =>
      obtain ⟨hnext, hkeeps⟩ := h.step d c
      obtain ⟨hlast, hrun⟩ := ih hnext (s.step d c).2
      refine ⟨hlast, fun r hr => hrun r ?_⟩
      obtain ⟨hsaved, hunsaved⟩ := hkeeps.holds r
      rw [Session.run, lastSaved?_cons] at hr
      cases hrest : lastSaved? r ((s.step d c).1.session.run (s.step d c).2 cs).1 with
      | some b =>
          rw [hrest] at hr
          exact .inl (by simpa using hr)
      | none =>
          rw [hrest, Option.none_or] at hr
          exact .inr ⟨rfl, hr.elim hsaved fun hr => hunsaved hr.1 hr.2⟩

end Session.KeptIn

/-! ### Opening again -/

theorem Preferences.WrittenIn.unique {p q : Preferences} {doc : Json} (hp : p.WrittenIn doc)
    (hq : q.WrittenIn doc) : q = p := by
  have := (ofJson_eq_ok_iff.mpr hq).symm.trans (ofJson_eq_ok_iff.mpr hp)
  exact Except.ok.inj this

/-- A document gives the preferences that it gives, and no others. -/
theorem Preferences.GivenBy.unique {p q : Preferences} {doc : Option Json} (hp : p.GivenBy doc)
    (hq : q.GivenBy doc) : q = p := by
  rcases hp with ⟨v, hv, hp⟩ | ⟨rfl, hnone⟩
  · rcases hq with ⟨w, hw, hq⟩ | ⟨-, hnone⟩
    · obtain rfl : v = w := Option.mem_unique hv hw
      exact hp.unique hq
    · exact absurd hp (hnone v hv p)
  · rcases hq with ⟨w, hw, hq⟩ | ⟨rfl, -⟩
    · exact absurd hq (hnone w hw q)
    · rfl

/-- Opening finds the entries of a history in its document. -/
theorem KeptHistory.entriesIn_toJson {h : History} (hid : ∀ e ∈ h.entries, e.id ≠ "") :
    entriesIn (some h.toJson) = h.entries := by
  rw [History.toJson, entriesIn, History.readItems_map_toJson hid]

/-- What a session has of a record is what a document gives. -/
def Record.GivenBy (s : Session) (doc : Option Json) : Record → Prop
  | .preferences => s.preferences.preferences.GivenBy doc ∧
      ∀ v ∈ doc, ¬ Preferences.AsksForInfinite v
  | .history     => s.history.history =
      .ofList History.standardCapacity History.standardCapacity_pos (KeptHistory.entriesIn doc)

/-- A session of which nothing has been typed yet, and that has both records as a tree has them in a
directory. -/
structure Session.OpensOn (s : Session) (directory : Path) (t : FileTree) : Prop where
  buffer : s.buffer = emptyBuffer
  preferences_store : s.preferences.store = some ⟨directory⟩
  history_store : s.history.store = some ⟨directory⟩
  given : ∀ r : Record, r.GivenBy s ((RecordStore.mk directory).document? r.key t)
  isThere : ∀ r : Record, ∃ there,
    t.isThere ((RecordStore.mk directory).recordPath r.key) = .ok there

/-- A document that a session has written is one that it would be given by. -/
theorem Record.givenBy_document {s : Session} {store : RecordStore} (h : s.KeptIn store)
    (r : Record) : r.GivenBy s (some (r.document s)) := by
  cases r with
  | preferences =>
      have hwritten := s.preferences.preferences.writtenIn_toJson
      refine ⟨.inl ⟨_, rfl, hwritten⟩, ?_⟩
      rintro _ ⟨⟩ hinfinite
      rw [← Preferences.ofJson_eq_infinite_iff] at hinfinite
      exact nomatch hinfinite.symm.trans (Preferences.ofJson_eq_ok_iff.mpr hwritten)
  | history =>
      show s.history.history = .ofList _ _ (KeptHistory.entriesIn (some s.history.history.toJson))
      rw [KeptHistory.entriesIn_toJson h.id_ne, History.ofList_entries h.capacity]

namespace Session
variable {directory : Path} {s : Session} {t : FileTree} {d e : Desk}

/-- A session opens with an empty buffer, on a history of the standard capacity, and takes no time
and no identifier. -/
theorem openAt_eq_ok {place : Option Path} (h : (openAt place).runAt d = (.ok s, e)) :
    s.buffer = emptyBuffer ∧ s.history.history.capacity = History.standardCapacity ∧
      e.SameTime d := by
  cases place with
  | none =>
      rw [runAt_openAt_none] at h
      cases h
      exact ⟨rfl, rfl, rfl, rfl⟩
  | some directory =>
      obtain ⟨p, levels, rfl, rfl, -⟩ := openAt_some_eq_ok h
      exact ⟨rfl, rfl, rfl, rfl⟩

/-- A session that has been opened keeps its records in the directory it was opened on. -/
theorem keptIn_of_openAt (h : (openAt (some directory)).runAt d = (.ok s, e)) :
    s.KeptIn ⟨directory⟩ := by
  obtain ⟨p, levels, rfl, -⟩ := openAt_some_eq_ok h
  refine ⟨rfl, rfl, rfl, fun e he => ?_⟩
  have he := List.mem_of_mem_take he
  unfold KeptHistory.entriesIn at he
  split at he
  · exact History.id_ne_of_mem_readItems e he
  · cases he

/-- A session opens where its records are. -/
theorem OpensOn.openAt (h : s.OpensOn directory d.files) :
    ∃ levels, (Session.openAt (some directory)).runAt d = (.ok s, d.noted levels) := by
  obtain ⟨hgiven, hfinite⟩ := h.given .preferences
  have hhistory : s.history.history = _ := h.given .history
  obtain ⟨there, hthere⟩ := h.isThere .preferences
  obtain ⟨p, levels, hp, hopen⟩ := (KeptPreferences.runAt_openWith hthere).2 hfinite
  obtain ⟨more, hrun⟩ := runAt_openAt hthere hopen
  refine ⟨more, hrun.trans ?_⟩
  obtain rfl : s.preferences.preferences = p := hp.unique hgiven
  obtain ⟨buffer, ⟨p, store⟩, ⟨history, store'⟩⟩ := s
  obtain ⟨rfl, rfl, rfl⟩ : buffer = _ ∧ store = _ ∧ store' = _ :=
    ⟨h.buffer, h.preferences_store, h.history_store⟩
  obtain rfl : history = _ := hhistory
  rfl

/-- A session that has opened has the records. -/
theorem opensOn_of_openAt (h : (Session.openAt (some directory)).runAt d = (.ok s, e)) :
    s.OpensOn directory d.files := by
  obtain ⟨p, levels, rfl, -, ⟨there, hthere⟩, hgiven, hfinite⟩ := openAt_some_eq_ok h
  refine ⟨rfl, rfl, rfl, fun r => ?_, fun r => ?_⟩
  · cases r with
    | preferences => exact ⟨hgiven, hfinite⟩
    | history => rfl
  · cases r with
    | preferences => exact ⟨there, hthere⟩
    | history => exact exists_isThere_history hthere

/-- A session whose records are saved opens where they are, but for what has been typed. -/
theorem KeptIn.opensOn (h : s.KeptIn ⟨directory⟩)
    (hheld : ∀ r : Record, (RecordStore.mk directory).Holds r.key (r.document s) t) :
    { s with buffer := emptyBuffer : Session }.OpensOn directory t := by
  refine ⟨rfl, h.preferences_store, h.history_store, fun r => ?_, fun r => ⟨_, (hheld r).isThere⟩⟩
  rw [(hheld r).document?_eq (Record.readsBack_document s r)]
  cases r with
  | preferences => exact Record.givenBy_document h .preferences
  | history => exact Record.givenBy_document h .history

/-- A session that the files hold opens again. -/
theorem KeptIn.openAt (h : s.KeptIn ⟨directory⟩)
    (hheld : ∀ r : Record, (RecordStore.mk directory).Holds r.key (r.document s) d.files) :
    ∃ t e, (openAt (some directory)).runAt d = (.ok t, e) ∧
      t.preferences.preferences = s.preferences.preferences ∧
      t.history.history = s.history.history := by
  obtain ⟨levels, hopen⟩ := (h.opensOn hheld).openAt
  exact ⟨_, _, hopen, rfl, rfl⟩

end Session

/-- **What a session shows does not depend on where it is kept, and it comes back as it was left.**
Whatever is asked of two sessions that have opened with the standard preferences and no entries, in
memory or on any files and with any refusals, they show the same.  And when the last save of each
of the two records has succeeded, a session opens on the directory with the same preferences and
the same entries. -/
theorem run_alike_and_reopened (calls : List Call) :
    (∀ (place place' : Option Path) (d d' e e' : Desk) (s s' : Session),
      (Session.openAt place).runAt d = (.ok s, e) →
      (Session.openAt place').runAt d' = (.ok s', e') →
      d.clock = d'.clock → d.lastId = d'.lastId →
      s.preferences.preferences = {} → s.history.history.entries = [] →
      s'.preferences.preferences = {} → s'.history.history.entries = [] →
      (s.run e calls).1.map Step.shown = (s'.run e' calls).1.map Step.shown) ∧
    ∀ (directory : Path) (d e : Desk) (s : Session),
      (Session.openAt (some directory)).runAt d = (.ok s, e) →
      (∀ r, lastSaved? r (s.run e calls).1 = some true) →
      ∀ f : Desk, f.files = (s.run e calls).2.2.files →
        ∃ t g, (Session.openAt (some directory)).runAt f = (.ok t, g) ∧
          t.preferences.preferences = (s.run e calls).2.1.preferences.preferences ∧
          t.history.history.entries = (s.run e calls).2.1.history.history.entries := by
  refine ⟨?_, ?_⟩
  · intro place place' d d' e e' s s' hopen hopen' hclock hlastId hp hes hp' hes'
    obtain ⟨hbuffer, hcapacity, htime⟩ := Session.openAt_eq_ok hopen
    obtain ⟨hbuffer', hcapacity', htime'⟩ := Session.openAt_eq_ok hopen'
    have halike : s.Alike s' :=
      ⟨hbuffer.trans hbuffer'.symm, hp.trans hp'.symm,
        History.eq_of_entries (hcapacity.trans hcapacity'.symm) (hes.trans hes'.symm)⟩
    exact halike.run ⟨htime.clock.trans (hclock.trans htime'.clock.symm),
      htime.lastId.trans (hlastId.trans htime'.lastId.symm)⟩ calls
  · intro directory d e s hopen hsaved f hfiles
    obtain ⟨hkept, hheld⟩ := (Session.keptIn_of_openAt hopen).run e calls
    obtain ⟨t, g, ht, hpreferences, hhistory⟩ := hkept.openAt (d := f)
      fun r => hfiles ▸ hheld r (.inl (hsaved r))
    exact ⟨t, g, ht, hpreferences, congrArg History.entries hhistory⟩

/-- A device that gives out after one byte of the first save, a text that fails and a theme that
there is not. -/
theorem run_alike_and_reopened_after_refusal :
    let calls : List Call := [.switchTheme, .evaluate (some "1/"), .choosePrecision (.int 3),
      .chooseTheme (.string "blue")]
    ∃ s e s' e', (Session.openAt none).runAt {} = (.ok s, e) ∧
      (Session.openAt (some ⟨0, ["data"]⟩)).runAt { refusals := [some (.writing 1)] } =
        (.ok s', e') ∧
      (s.run e calls).1.map Step.shown = (s'.run e' calls).1.map Step.shown ∧
      (∀ r, lastSaved? r (s'.run e' calls).1 = some true) ∧
      ∃ t g, (Session.openAt (some ⟨0, ["data"]⟩)).runAt (s'.run e' calls).2.2 = (.ok t, g) ∧
        t.preferences.preferences = ⟨.dark, .clamp 3⟩ ∧ t.history.history.entries.length = 1 := by
  dsimp only
  have hopen : (Session.openAt (some ⟨0, ["data"]⟩)).runAt { refusals := [some (.writing 1)] } =
      (.ok ⟨Session.emptyBuffer, ⟨{}, some ⟨⟨0, ["data"]⟩⟩⟩,
        ⟨.ofList History.standardCapacity (by decide) [], some ⟨⟨0, ["data"]⟩⟩⟩⟩,
        ({ refusals := [some (.writing 1)] } : Desk).noted [.info]) := rfl
  have hsaved : ∀ r, lastSaved? r ((⟨Session.emptyBuffer, ⟨{}, some ⟨⟨0, ["data"]⟩⟩⟩,
      ⟨.ofList History.standardCapacity (by decide) [], some ⟨⟨0, ["data"]⟩⟩⟩⟩ : Session).run
        (({ refusals := [some (.writing 1)] } : Desk).noted [.info]) [.switchTheme,
          .evaluate (some "1/"), .choosePrecision (.int 3),
          .chooseTheme (.string "blue")]).1 = some true := by
    intro r
    cases r <;> decide +kernel
  obtain ⟨halike, hreopened⟩ := run_alike_and_reopened [.switchTheme, .evaluate (some "1/"),
    .choosePrecision (.int 3), .chooseTheme (.string "blue")]
  obtain ⟨t, g, ht, hpreferences, hentries⟩ := hreopened _ _ _ _ hopen hsaved _ rfl
  refine ⟨_, _, _, _, Session.runAt_openAt_none {}, hopen,
    halike none _ {} _ _ _ _ _ rfl hopen rfl rfl rfl rfl rfl rfl, hsaved, t, g, ht,
    hpreferences.trans ?_, (congrArg List.length hentries).trans ?_⟩
  · decide +kernel
  · decide +kernel

end Abacus

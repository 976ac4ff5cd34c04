import Abacus.Session
import Abacus.Proofs.Files.Tree
import Abacus.Proofs.Preferences
import Abacus.Proofs.Records

/-!
# Abacus — Session — Opening on stored records

What a session finds when it opens on a directory.  Whatever the file of the preferences holds, the
preferences are those it writes, or the standard ones if it writes none (`Preferences.GivenBy`),
with one exception: a document that asks for an infinite precision stops the opening
(`opening_of_record`).  The history never does.
-/

namespace Abacus

/-! ### Preferences -/

/-- The preferences of what a file holds, which may be no document: those that the document writes,
and the standard ones if it writes none. -/
def Preferences.GivenBy (p : Preferences) (doc : Option Json) : Prop :=
  (∃ v ∈ doc, p.WrittenIn v) ∨ p = {} ∧ ∀ v ∈ doc, ∀ q : Preferences, ¬ q.WrittenIn v

namespace KeptPreferences
variable {store : RecordStore} {d : Desk}

/-- A document that asks for an infinite precision stops the opening. -/
theorem runAt_preferencesOf_infinite {v : Json} (h : Preferences.AsksForInfinite v) (d : Desk) :
    (preferencesOf (some v)).runAt d = (.error .infinitePrecision, d) := by
  simp [preferencesOf, Preferences.ofJson_eq_infinite_iff.mpr h]

/-- Any other document gives preferences, with notices where it does not give its own. -/
theorem runAt_preferencesOf {doc : Option Json}
    (h : ∀ v ∈ doc, ¬ Preferences.AsksForInfinite v) (d : Desk) :
    ∃ p levels, p.GivenBy doc ∧ (preferencesOf doc).runAt d = (.ok p, d.noted levels) := by
  cases doc with
  | none => exact ⟨{}, [], .inr ⟨rfl, nofun⟩, by simp [preferencesOf]⟩
  | some v =>
      cases hv : Preferences.ofJson v with
      | ok p =>
          exact ⟨p, [], .inl ⟨v, rfl, Preferences.ofJson_eq_ok_iff.mp hv⟩,
            by simp [preferencesOf, hv]⟩
      | error e =>
          have hnone (q : Preferences) : ¬ q.WrittenIn v := fun hq => by
            rw [Preferences.ofJson_eq_ok_iff.mpr hq] at hv
            cases hv
          refine ⟨{}, [.warning], .inr ⟨rfl, fun w hw => by cases hw; exact hnone⟩, ?_⟩
          cases e with
          | infinitePrecision => exact absurd (Preferences.ofJson_eq_infinite_iff.mp hv) (h v rfl)
          | invalid issues =>
              simp only [preferencesOf, hv]
              exact Attempt.runAt_bind_of_ok (Attempt.runAt_lift _ d)
          | notATheme given =>
              simp only [preferencesOf, hv]
              exact Attempt.runAt_bind_of_ok (Attempt.runAt_lift _ d)

/-- Opening gives the preferences of what can be read, or stops at an infinite precision. -/
theorem runAt_openWith {there : Bool} (h : d.files.isThere (store.recordPath key) = .ok there) :
    ((∃ v ∈ store.document? key d.files, Preferences.AsksForInfinite v) →
      ∃ levels, (openWith (some store)).runAt d = (.error .infinitePrecision, d.noted levels)) ∧
    ((∀ v ∈ store.document? key d.files, ¬ Preferences.AsksForInfinite v) →
      ∃ p levels, p.GivenBy (store.document? key d.files) ∧
        (openWith (some store)).runAt d = (.ok ⟨p, some store⟩, d.noted levels)) := by
  obtain ⟨levels, hload⟩ := RecordStore.runAt_load h
  have hadapt : Attempt.runAt (ExceptT.adapt OpenFailure.file (store.load key)) d =
      (.ok (store.document? key d.files), d.noted levels) := by
    rw [Attempt.runAt_adapt, hload]
    rfl
  simp only [openWith, Attempt.runAt_bind_of_ok hadapt]
  constructor
  · rintro ⟨v, hv, hinf⟩
    rw [Option.mem_def.mp hv]
    exact ⟨levels, Attempt.runAt_bind_of_error (runAt_preferencesOf_infinite hinf _)⟩
  · intro hfinite
    obtain ⟨p, more, hp, hrun⟩ := runAt_preferencesOf hfinite (d.noted levels)
    refine ⟨p, levels ++ more, hp, ?_⟩
    rw [Attempt.runAt_bind_of_ok hrun, Desk.noted_noted]
    rfl

end KeptPreferences

/-! ### History -/

namespace KeptHistory
variable {store : RecordStore} {d : Desk}

/-- The entries of what a file holds; what is no list of items has none. -/
def entriesIn : Option Json → List Entry
  | some (.array items) => (History.readItems items).1
  | _                   => []

theorem runAt_warn (n : Nat) (d : Desk) :
    (warn n).runAt d = ((), d.noted (List.replicate n .warning)) := by
  induction n generalizing d with
  | zero => simp [warn]
  | succ n ih =>
      simp only [warn, Work.runAt_bind, Desk.runAt_note, ih, Desk.noted_noted]
      rfl

/-- Any document gives entries, with notices for what it does not list. -/
theorem runAt_entriesOf (doc : Option Json) (d : Desk) :
    ∃ levels, (entriesOf doc).runAt d = (entriesIn doc, d.noted levels) := by
  cases doc with
  | none => exact ⟨[], by simp [entriesOf, entriesIn]⟩
  | some v =>
      cases v with
      | array items =>
          refine ⟨List.replicate (History.readItems items).2 .warning, ?_⟩
          simp only [entriesOf, entriesIn, Work.runAt_bind, runAt_warn, Work.runAt_pure]
      | null | bool b | int i | float x | string s | object fields | foreign =>
          exact ⟨[.warning], rfl⟩

/-- A history opens with the entries of what can be read, as many as its capacity allows. -/
theorem runAt_openWith {capacity : Nat} (pos : 0 < capacity) {there : Bool}
    (h : d.files.isThere (store.recordPath key) = .ok there) :
    ∃ levels, (openWith capacity pos (some store)).runAt d =
      (.ok ⟨.ofList capacity pos (entriesIn (store.document? key d.files)), some store⟩,
        d.noted levels) := by
  obtain ⟨levels, hload⟩ := RecordStore.runAt_load h
  obtain ⟨more, hentries⟩ := runAt_entriesOf (store.document? key d.files) (d.noted levels)
  refine ⟨levels ++ more, ?_⟩
  simp only [openWith, Attempt.runAt_bind_of_ok hload]
  rw [Attempt.runAt_bind_of_ok (Attempt.runAt_lift _ _), hentries, Desk.noted_noted]
  rfl

end KeptHistory

/-! ### Sessions -/

namespace Session
variable {directory : Path} {d : Desk}

/-- Where the record of the preferences can be asked for, so can that of the history. -/
theorem exists_isThere_history {there : Bool}
    (h : d.files.isThere ((RecordStore.mk directory).recordPath KeptPreferences.key) = .ok there) :
    ∃ there, d.files.isThere ((RecordStore.mk directory).recordPath KeptHistory.key) = .ok there :=
  FileTree.isThere_child_of_le (by decide) (by decide) (by decide) h

/-- A session opens on a directory when its preferences do. -/
theorem runAt_openAt {p : Preferences} {levels : List Level} {there : Bool}
    (h : d.files.isThere ((RecordStore.mk directory).recordPath KeptPreferences.key) = .ok there)
    (hp : (KeptPreferences.openWith (some ⟨directory⟩)).runAt d =
      (.ok ⟨p, some ⟨directory⟩⟩, d.noted levels)) :
    ∃ more, (openAt (some directory)).runAt d =
      (.ok ⟨emptyBuffer, ⟨p, some ⟨directory⟩⟩,
        ⟨.ofList History.standardCapacity (by decide)
          (KeptHistory.entriesIn ((RecordStore.mk directory).document? KeptHistory.key d.files)),
          some ⟨directory⟩⟩⟩, d.noted more) := by
  obtain ⟨there', hthere⟩ := exists_isThere_history h
  have hcapacity : 0 < History.standardCapacity := by decide
  obtain ⟨more, hhistory⟩ := KeptHistory.runAt_openWith (d := d.noted levels) hcapacity hthere
  refine ⟨levels ++ more ++ [.info], ?_⟩
  have hadapt : Attempt.runAt (ExceptT.adapt OpenFailure.file
      (KeptHistory.openStandard (some ⟨directory⟩))) (d.noted levels) =
        (.ok ⟨.ofList History.standardCapacity (by decide)
          (KeptHistory.entriesIn ((RecordStore.mk directory).document? KeptHistory.key d.files)),
          some ⟨directory⟩⟩, (d.noted levels).noted more) := by
    rw [Attempt.runAt_adapt, KeptHistory.openStandard, hhistory]
    rfl
  simp only [openAt, Option.map_some, Attempt.runAt_bind_of_ok hp, Attempt.runAt_bind_of_ok hadapt]
  rw [Attempt.runAt_bind_of_ok (Attempt.runAt_lift _ _), Desk.runAt_note]
  simp

/-- Nor does a session open where its preferences do not. -/
theorem runAt_openAt_of_error {e : OpenFailure} {d' : Desk}
    (h : (KeptPreferences.openWith (some ⟨directory⟩)).runAt d = (.error e, d')) :
    (openAt (some directory)).runAt d = (.error e, d') :=
  Attempt.runAt_bind_of_error h

/-- What a session has opened with: an empty buffer, the preferences that the directory's record
gives, the entries that it holds, and the directory to keep both in. -/
theorem openAt_some_eq_ok {s : Session} {e : Desk}
    (h : (openAt (some directory)).runAt d = (.ok s, e)) :
    ∃ p levels, s = ⟨emptyBuffer, ⟨p, some ⟨directory⟩⟩,
        ⟨.ofList History.standardCapacity (by decide)
          (KeptHistory.entriesIn ((RecordStore.mk directory).document? KeptHistory.key d.files)),
          some ⟨directory⟩⟩⟩ ∧
      e = d.noted levels ∧
      (∃ there, d.files.isThere ((RecordStore.mk directory).recordPath KeptPreferences.key) =
        .ok there) ∧
      p.GivenBy ((RecordStore.mk directory).document? KeptPreferences.key d.files) ∧
      ∀ v ∈ (RecordStore.mk directory).document? KeptPreferences.key d.files,
        ¬ Preferences.AsksForInfinite v := by
  cases hthere : d.files.isThere ((RecordStore.mk directory).recordPath KeptPreferences.key) with
  | error f =>
      have hload : Attempt.runAt (ExceptT.adapt OpenFailure.file
          ((RecordStore.mk directory).load KeptPreferences.key)) d = (.error (.file f), d) := by
        rw [Attempt.runAt_adapt, RecordStore.runAt_load_of_error hthere]
        rfl
      have hopen : (KeptPreferences.openWith (some ⟨directory⟩)).runAt d = (.error (.file f), d) :=
        Attempt.runAt_bind_of_error hload
      rw [runAt_openAt_of_error hopen] at h
      cases h
  | ok there =>
      obtain ⟨hinfinite, hfinite⟩ := KeptPreferences.runAt_openWith hthere
      by_cases hdoc : ∃ v ∈ (RecordStore.mk directory).document? KeptPreferences.key d.files,
          Preferences.AsksForInfinite v
      · obtain ⟨levels, hrun⟩ := hinfinite hdoc
        rw [runAt_openAt_of_error hrun] at h
        cases h
      · have hdoc : ∀ v ∈ (RecordStore.mk directory).document? KeptPreferences.key d.files,
            ¬ Preferences.AsksForInfinite v := by simpa using hdoc
        obtain ⟨p, levels, hp, hrun⟩ := hfinite hdoc
        obtain ⟨more, hopen⟩ := runAt_openAt hthere hrun
        rw [hopen] at h
        cases h
        exact ⟨p, more, rfl, rfl, ⟨there, rfl⟩, hp, hdoc⟩

/-- In memory a session opens with nothing. -/
theorem runAt_openAt_none (d : Desk) :
    (openAt none).runAt d =
      (.ok ⟨emptyBuffer, ⟨{}, none⟩, ⟨.ofList History.standardCapacity (by decide) [], none⟩⟩,
        d.noted [.info]) :=
  rfl

end Session

/-- **A session opens on every record of preferences but one that asks for an infinite precision**,
with the preferences that the record writes, or the standard ones if it writes none.  The one thing
asked of the directory is that the record's name can be looked up in it. -/
theorem opening_of_record (directory : Path) (d : Desk) (there : Bool)
    (h : d.files.isThere ((RecordStore.mk directory).recordPath KeptPreferences.key) = .ok there) :
    let doc := (RecordStore.mk directory).document? KeptPreferences.key d.files
    ((∃ v ∈ doc, Preferences.AsksForInfinite v) →
      (∃ e, (KeptPreferences.openWith (some ⟨directory⟩)).runAt d =
        (.error .infinitePrecision, e)) ∧
      ∃ e, (Session.openAt (some directory)).runAt d = (.error .infinitePrecision, e)) ∧
    ((∀ v ∈ doc, ¬ Preferences.AsksForInfinite v) →
      ∃ p : Preferences, p.GivenBy doc ∧ p.precision.places ≤ 12 ∧
        (∃ e, (KeptPreferences.openWith (some ⟨directory⟩)).runAt d =
          (.ok ⟨p, some ⟨directory⟩⟩, e)) ∧
        ∃ s e, (Session.openAt (some directory)).runAt d = (.ok s, e) ∧
          s.preferences = ⟨p, some ⟨directory⟩⟩) := by
  intro doc
  obtain ⟨hinfinite, hfinite⟩ := KeptPreferences.runAt_openWith h
  refine ⟨fun hdoc => ?_, fun hdoc => ?_⟩
  · obtain ⟨levels, hrun⟩ := hinfinite hdoc
    exact ⟨⟨_, hrun⟩, _, Session.runAt_openAt_of_error hrun⟩
  · obtain ⟨p, levels, hp, hrun⟩ := hfinite hdoc
    obtain ⟨more, hopen⟩ := Session.runAt_openAt h hrun
    exact ⟨p, hp, p.precision.places_le, ⟨_, hrun⟩, _, _, hopen, rfl⟩

/-- A directory stands where the record should be. -/
theorem opening_of_record_at_directory :
    let d : Desk :=
      { files := ⟨[(["s"], .directory), (["s", "mini-calc_settings.json"], .directory)], []⟩ }
    d.files.isThere ((RecordStore.mk ⟨0, ["s"]⟩).recordPath KeptPreferences.key) = .ok true ∧
      ∃ s e, (Session.openAt (some ⟨0, ["s"]⟩)).runAt d = (.ok s, e) ∧
        s.preferences.preferences = {} := by
  intro d
  have hthere :
      d.files.isThere ((RecordStore.mk ⟨0, ["s"]⟩).recordPath KeptPreferences.key) = .ok true := rfl
  have hnone : (RecordStore.mk ⟨0, ["s"]⟩).document? KeptPreferences.key d.files = none := rfl
  obtain ⟨p, hp, -, -, s, e, hopen, hs⟩ :=
    (opening_of_record ⟨0, ["s"]⟩ d true hthere).2 (by rw [hnone]; nofun)
  rw [hnone] at hp
  obtain ⟨v, hv, -⟩ | ⟨rfl, -⟩ := hp
  · cases hv
  · exact ⟨hthere, s, e, hopen, by rw [hs]⟩

/-- No session opens on a record that asks for an infinite precision. -/
theorem openAt_infinite_precision :
    let d : Desk :=
      { files := ⟨[(["s"], .directory), (["s", "mini-calc_settings.json"],
          .file "\x7b\"precision\": Infinity\x7d".toUTF8)], []⟩ }
    ∃ e, (Session.openAt (some ⟨0, ["s"]⟩)).runAt d = (.error .infinitePrecision, e) := by
  intro d
  have hlookup : d.files.lookup ((RecordStore.mk ⟨0, ["s"]⟩).recordPath KeptPreferences.key) =
      .ok (.file "\x7b\"precision\": Infinity\x7d".toUTF8) := rfl
  have hthere : d.files.isThere ((RecordStore.mk ⟨0, ["s"]⟩).recordPath KeptPreferences.key) =
      .ok true := by rw [FileTree.isThere, hlookup]
  have htext := FileTree.readText_of_lookup hlookup
  have hdoc : (RecordStore.mk ⟨0, ["s"]⟩).document? KeptPreferences.key d.files =
      some (.object [("precision", .float (.inf false))]) := by
    rw [RecordStore.document?, RecordStore.readDocument?, htext]
    cbv
  obtain ⟨levels, hrun⟩ := (KeptPreferences.runAt_openWith hthere).1
    (by rw [hdoc]; exact ⟨_, rfl, false, rfl⟩)
  exact ⟨_, Session.runAt_openAt_of_error hrun⟩

end Abacus

import Abacus.Proofs.History
import Abacus.Proofs.Session.Calls
import Abacus.Proofs.Session.Opening

/-!
# Abacus — History — Recording, and what is kept of it

A history holds what has been recorded, newest first, and behind it what it was opened with, as many
entries of both as its capacity allows (`KeptHistory.recordEach_of_eq_take`).  What it was opened
with are the entries that the stored document writes (`Entry.writtenIn?`), whatever else stands
among them.  Whether the saves succeed does not matter to this; but once one does, the file has the
whole history again, with all that was recorded while the saves failed (`recent_of_recordings`).
-/

namespace Abacus

/-! ### Entries that a document writes -/

/-- The entry that a value writes: an object with its four texts, the identifier not empty. -/
def Entry.writtenIn? (v : Json) : Option Entry :=
  match v.field? "id", v.field? "expression", v.field? "result", v.field? "timestamp" with
  | some (.string id), some (.string expression), some (.string result), some (.string timestamp) =>
      if id = "" then none else some ⟨id, expression, result, timestamp⟩
  | _, _, _, _ => none

/-- The entries that a document writes, if there is one: those among the items of a list. -/
def Entry.listedIn : Option Json → List Entry
  | some (.array items) => items.filterMap Entry.writtenIn?
  | _                   => []

/-- Only objects have fields. -/
theorem Json.eq_object_of_field? {v w : Json} {name : String} (h : v.field? name = some w) :
    ∃ fields, v = .object fields := by
  cases v with
  | object fields => exact ⟨fields, rfl⟩
  | null | bool b | int i | float x | string s | array items | foreign => cases h

/-- An entry is written in exactly the values that are read as it. -/
theorem Entry.writtenIn?_eq_some_iff {v : Json} {e : Entry} :
    writtenIn? v = some e ↔ ofJson v = .ok e := by
  rw [ofJson_eq_ok_iff]
  constructor
  · intro h
    unfold writtenIn? at h
    split at h
    · next id expression result timestamp hid hexpression hresult htimestamp =>
        split_ifs at h with hempty
        cases h
        exact ⟨Json.eq_object_of_field? hid, hempty, hid, hexpression, hresult, htimestamp⟩
    · cases h
  · rintro ⟨-, hne, hid, hexpression, hresult, htimestamp⟩
    simp [writtenIn?, hid, hexpression, hresult, htimestamp, hne]

/-- What is read of a list is what its values write, in their order. -/
theorem History.readItems_eq_filterMap (items : List Json) :
    (readItems items).1 = items.filterMap Entry.writtenIn? := by
  induction items with
  | nil => rfl
  | cons v vs ih =>
      rw [readItems, List.filterMap_cons]
      cases hv : Entry.ofJson v with
      | ok e => simp [Entry.writtenIn?_eq_some_iff.mpr hv, ih]
      | issues l =>
          have hnone : Entry.writtenIn? v = none := by
            refine Option.eq_none_iff_forall_ne_some.mpr fun e he => ?_
            cases hv.symm.trans (Entry.writtenIn?_eq_some_iff.mp he)
          simp [hnone, ih]

/-- Opening lists what a document writes. -/
theorem KeptHistory.entriesIn_eq_listedIn (doc : Option Json) :
    entriesIn doc = Entry.listedIn doc := by
  cases doc with
  | none => rfl
  | some v =>
      cases v with
      | array items => exact History.readItems_eq_filterMap items
      | null | bool b | int i | float x | string s | object fields | foreign => rfl

theorem Entry.id_ne_of_mem_listedIn {doc : Option Json} : ∀ e ∈ listedIn doc, e.id ≠ "" := by
  intro e he
  unfold listedIn at he
  split at he
  · obtain ⟨v, -, hv⟩ := List.mem_filterMap.mp he
    exact id_ne_of_ofJson (writtenIn?_eq_some_iff.mp hv)
  · cases he

/-- The document of a history writes its entries. -/
theorem Entry.listedIn_toJson {h : History} (hid : ∀ e ∈ h.entries, e.id ≠ "") :
    listedIn (some h.toJson) = h.entries := by
  have hitems := History.readItems_eq_filterMap (h.entries.map Entry.toJson)
  rw [History.readItems_map_toJson hid] at hitems
  rw [History.toJson, listedIn, ← hitems]

/-! ### Recording -/

/-- What is put in front of the first entries of a list is put in front of the list. -/
theorem History.entries_push_of_eq_take {h : History} {es : List Entry}
    (hentries : h.entries = es.take h.capacity) (e : Entry) :
    (h.push e).entries = (e :: es).take h.capacity := by
  obtain ⟨n, hn⟩ := Nat.exists_eq_succ_of_ne_zero h.capacity_pos.ne'
  show (e :: h.entries).take h.capacity = _
  rw [hentries, hn, List.take_succ_cons, List.take_succ_cons, List.take_take,
    Nat.min_eq_left n.le_succ]

namespace KeptHistory

/-- Entries recorded one after the other, each at a desk of its own: whatever has become of the
files in the meantime, and whichever saves are refused. -/
def recordEach (k : KeptHistory) (turns : List (Desk × Entry)) : KeptHistory :=
  turns.foldl (fun k turn => ((k.record turn.2).runAt turn.1).1) k

/-- Whether the history is saved when an entry is recorded. -/
def savesWith (k : KeptHistory) (e : Entry) (d : Desk) : Prop :=
  ∃ store ∈ k.store, ((store.save key (k.history.push e).toJson).runAt d).1 = true

variable {k : KeptHistory} {store : RecordStore} {d : Desk}

/-- What each recording keeps: the store and the capacity, and the law of the entries. -/
theorem record_of_eq_take {es : List Entry}
    (hentries : k.history.entries = es.take k.history.capacity) (e : Entry) (d : Desk) :
    let after := ((k.record e).runAt d).1
    after.store = k.store ∧ after.history.capacity = k.history.capacity ∧
      after.history.entries = (e :: es).take after.history.capacity := by
  rw [runAt_record]
  exact ⟨rfl, rfl, History.entries_push_of_eq_take hentries e⟩

/-- After any number of recordings there are those entries, newest first, before the ones that were
there, as many as the capacity allows. -/
theorem recordEach_of_eq_take (turns : List (Desk × Entry)) {es : List Entry}
    (hentries : k.history.entries = es.take k.history.capacity) :
    let after := k.recordEach turns
    after.store = k.store ∧ after.history.capacity = k.history.capacity ∧
      after.history.entries =
        ((turns.map Prod.snd).reverse ++ es).take after.history.capacity := by
  induction turns generalizing k es with
  | nil => exact ⟨rfl, rfl, hentries⟩
  | cons turn turns ih =>
      obtain ⟨hstore, hcapacity, hnext⟩ := record_of_eq_take hentries turn.2 turn.1
      obtain ⟨hstores, hcapacities, hlast⟩ := ih hnext
      refine ⟨hstores.trans hstore, hcapacities.trans hcapacity, hlast.trans ?_⟩
      simp [recordEach]

/-- A history that has been saved opens again with what it holds, as much of it as the new capacity
allows. -/
theorem openWith_of_savesWith {e : Entry} (hstore : k.store = some store)
    (hid : ∀ e ∈ k.history.entries, e.id ≠ "") (he : e.id ≠ "") (hsaves : k.savesWith e d)
    {f : Desk} (hfiles : f.files = ((k.record e).runAt d).2.files) {capacity : ℕ}
    (pos : 0 < capacity) :
    ∃ again g, (openWith capacity pos (some store)).runAt f = (.ok again, g) ∧
      again.history.entries = ((k.record e).runAt d).1.history.entries.take capacity := by
  obtain ⟨_, hmem, hsaved⟩ := hsaves
  obtain rfl : _ = store := Option.some.inj ((Option.mem_def.mp hmem).symm.trans hstore)
  rename_i store
  obtain ⟨files, done, hrun, hdone, -⟩ := store.runAt_save key (k.history.push e).toJson d
  rw [hrun] at hsaved
  have hheld : store.Holds key (k.history.push e).toJson f.files := by
    rw [hfiles, runAt_record, hstore, Desk.afterSave, hrun]
    exact hdone hsaved
  have hpushed : ∀ e' ∈ (k.history.push e).entries, e'.id ≠ "" := fun e' he' =>
    (List.mem_cons.mp (List.mem_of_mem_take he')).elim (fun h => h ▸ he) (hid e')
  obtain ⟨levels, hopen⟩ := runAt_openWith pos hheld.isThere
  rw [hheld.document?_eq (History.readsBack_toJson _), entriesIn_eq_listedIn,
    Entry.listedIn_toJson hpushed] at hopen
  refine ⟨_, _, hopen, ?_⟩
  rw [runAt_record]
  rfl

end KeptHistory

/-- **A history is what has been recorded and, behind it, what it was opened with, up to its
capacity; and what has been saved comes back.**  Whatever the history's file holds, opening
succeeds, and after any recordings, whichever of their saves fail, the history lists the recorded
entries, newest first, before the entries that the file's document wrote, as many as the capacity
allows; a limit takes the first of these.  Once a recording is saved, a history of any capacity
opens with the entries listed then.  The one thing asked of the directory is that the file's name
can be looked up in it. -/
theorem recent_of_recordings (store : RecordStore) (d : Desk) (there : Bool)
    (h : d.files.isThere (store.recordPath KeptHistory.key) = .ok there)
    (capacity : ℕ) (pos : 0 < capacity) (turns : List (Desk × Entry)) :
    ∃ k e, (KeptHistory.openWith capacity pos (some store)).runAt d = (.ok k, e) ∧
      let after := k.recordEach turns
      after.history.recent none = ((turns.map Prod.snd).reverse ++
        Entry.listedIn (store.document? KeptHistory.key d.files)).take capacity ∧
      after.history.length ≤ capacity ∧
      (∀ limit : ℤ, after.history.recent (some limit) =
        (after.history.recent none).take (max limit 0).toNat) ∧
      ((∀ turn ∈ turns, turn.2.id ≠ "") → ∀ (g : Desk) (last : Entry), last.id ≠ "" →
        after.savesWith last g →
        ∀ f : Desk, f.files = ((after.record last).runAt g).2.files →
        ∀ (capacity' : ℕ) (pos' : 0 < capacity'), ∃ again e',
          (KeptHistory.openWith capacity' pos' (some store)).runAt f = (.ok again, e') ∧
          again.history.recent none =
            (((after.record last).runAt g).1.history.recent none).take capacity') := by
  obtain ⟨levels, hopen⟩ := KeptHistory.runAt_openWith pos h
  rw [KeptHistory.entriesIn_eq_listedIn] at hopen
  refine ⟨_, _, hopen, ?_⟩
  generalize hstored : Entry.listedIn (store.document? KeptHistory.key d.files) = stored
  obtain ⟨hstore, hcapacity, hentries⟩ := KeptHistory.recordEach_of_eq_take
    (k := ⟨.ofList capacity pos stored, some store⟩) turns rfl
  generalize (⟨.ofList capacity pos stored, some store⟩ : KeptHistory).recordEach turns = after
    at hstore hcapacity hentries
  rw [show after.history.capacity = capacity from hcapacity] at hentries
  refine ⟨hentries, ?_, fun limit => ?_,
    fun hturns g last hlast hsaves f hfiles capacity' pos' => ?_⟩
  · exact after.history.length_le.trans_eq hcapacity
  · show after.history.entries.take limit.toNat = after.history.entries.take _
    rw [show (max limit 0).toNat = limit.toNat by omega]
  · refine KeptHistory.openWith_of_savesWith hstore (fun e he => ?_) hlast hsaves hfiles pos'
    rw [hentries] at he
    rcases List.mem_append.mp (List.mem_of_mem_take he) with he | he
    · obtain ⟨turn, hturn, rfl⟩ := List.mem_map.mp (List.mem_reverse.mp he)
      exact hturns turn hturn
    · exact Entry.id_ne_of_mem_listedIn e (hstored ▸ he)

/-- An entry beside what is none, room for two, a recording in whose save the device gives out, one
that it saves, and a history opened with room for three. -/
theorem recent_of_recordings_after_refusal :
    let old : Entry := ⟨"1", "1", "1", "t"⟩
    let refused : Entry := ⟨"2", "2", "2", "t"⟩
    let last : Entry := ⟨"3", "3", "3", "t"⟩
    let text := String.ofList (Json.array [.int 7, old.toJson]).text
    let d : Desk := { files :=
      ⟨[(["s"], .directory), (["s", "mini-calc_history.json"], .file text.toUTF8)], []⟩ }
    d.files.isThere ((RecordStore.mk ⟨0, ["s"]⟩).recordPath KeptHistory.key) = .ok true ∧
      ∃ k e, (KeptHistory.openWith 2 (by decide) (some ⟨⟨0, ["s"]⟩⟩)).runAt d = (.ok k, e) ∧
        let after := k.recordEach [({ d with refusals := [some (.writing 2)] }, refused)]
        after.history.recent none = [refused, old] ∧
        ∃ again e', (KeptHistory.openWith 3 (by decide) (some ⟨⟨0, ["s"]⟩⟩)).runAt
            ((after.record last).runAt d).2 = (.ok again, e') ∧
          again.history.recent none = [last, refused] := by
  intro old refused last text d
  have hheld : (RecordStore.mk ⟨0, ["s"]⟩).Holds KeptHistory.key (.array [.int 7, old.toJson])
      d.files := rfl
  have hseven : (Json.int 7).ReadsBack := by
    rw [Json.ReadsBack]
    decide
  have hdoc : (Json.array [.int 7, old.toJson]).ReadsBack := by
    rw [Json.ReadsBack]
    exact ⟨hseven, old.readsBack_toJson, trivial⟩
  have hlisted : Entry.listedIn ((RecordStore.mk ⟨0, ["s"]⟩).document? KeptHistory.key d.files) =
      [old] := by
    rw [hheld.document?_eq hdoc]
    rfl
  obtain ⟨k, e, hopen, hrecent, -, -, hagain⟩ := recent_of_recordings ⟨⟨0, ["s"]⟩⟩ d true
    hheld.isThere 2 (by decide) [({ d with refusals := [some (.writing 2)] }, refused)]
  have hk : k = ⟨.ofList 2 (by decide) [old], some ⟨⟨0, ["s"]⟩⟩⟩ := by
    obtain ⟨levels, hrun⟩ := KeptHistory.runAt_openWith (d := d) (show 0 < 2 by decide)
      hheld.isThere
    rw [KeptHistory.entriesIn_eq_listedIn, hlisted] at hrun
    exact Except.ok.inj (congrArg Prod.fst (hopen.symm.trans hrun))
  have hsaves : (k.recordEach [({ d with refusals := [some (.writing 2)] }, refused)]).savesWith
      last d := by
    subst hk
    exact ⟨⟨⟨0, ["s"]⟩⟩, rfl, by decide +kernel⟩
  obtain ⟨again, e', hrun, hlast⟩ := hagain (by simp [refused]) d last (by decide) hsaves _ rfl 3
    (by decide)
  rw [hlisted] at hrecent
  refine ⟨hheld.isThere, k, e, hopen, hrecent, again, e', hrun, ?_⟩
  rw [hlast]
  subst hk
  rfl

end Abacus

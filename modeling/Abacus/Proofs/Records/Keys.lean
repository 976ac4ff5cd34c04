import Abacus.Proofs.Session.Reopening

/-!
# Abacus — Records — Which keys share a record

A store keeps one document to a file name, and a key is kept under the name that is left of it when
the characters that are not safe have been replaced.  So a save changes what is loaded under the
keys of its own name, and under no others (`RecordStore.Settled.leaves`), and over any calls the
store is a map from names to documents (`load_after_calls`).  It is no map from keys: two keys that
differ in unsafe characters alone are one record (`load_of_key_of_same_name`).
-/

namespace Abacus

/-! ### Calls -/

/-- What can be asked of a store. -/
inductive StoreCall where
  | load (key : String)
  | save (key : String) (doc : Json)

namespace RecordStore

/-- The document that a file of such content is read as. -/
def documentOf (content : ByteArray) : Option Json :=
  match FileTree.decode content with
  | .ok text => Json.parse? text
  | .error _ => none

/-- What a call puts into a record, with its key, if it writes one: the document that is saved, or
what can be read of one over whose text the device has given out. -/
def serve (store : RecordStore) (d : Desk) : StoreCall → Option (String × Option Json) × Desk
  | .load key     => (none, ((store.load key).runAt d).2)
  | .save key doc =>
      let (done, after) := (store.save key doc).runAt d
      let left? := if done then some (some doc) else (store.takenAt? key doc d).map documentOf
      (left?.map fun left => (key, left), after)

/-- What calls put into records that are made one after the other, the latest first, and the desk at
the end. -/
def serveAll (store : RecordStore) (d : Desk) :
    List StoreCall → List (String × Option Json) × Desk
  | []      => ([], d)
  | c :: cs =>
      let (left?, after) := store.serve d c
      let (later, last) := store.serveAll after cs
      (later ++ left?.toList, last)

/-! ### What loading finds -/

variable {store : RecordStore} {key key' : String} {doc : Json} {t u : FileTree} {d : Desk}
  {q : Place}

/-- What loading gives under a key, on given files. -/
def found (store : RecordStore) (key : String) (t : FileTree) : Except FileFailure (Option Json) :=
  (t.isThere (store.recordPath key)).map fun _ => store.document? key t

/-- Loading gives what is found in the files. -/
theorem runAt_load_fst (store : RecordStore) (key : String) (d : Desk) :
    ((store.load key).runAt d).1 = store.found key d.files := by
  unfold found
  cases hthere : d.files.isThere (store.recordPath key) with
  | ok there =>
      obtain ⟨levels, hrun⟩ := runAt_load hthere
      rw [hrun]
      rfl
  | error f =>
      rw [runAt_load_of_error hthere]
      rfl

/-- Loading changes no files. -/
theorem files_runAt_load (store : RecordStore) (key : String) (d : Desk) :
    ((store.load key).runAt d).2.files = d.files := by
  cases hthere : d.files.isThere (store.recordPath key) with
  | ok there =>
      obtain ⟨levels, hrun⟩ := runAt_load hthere
      rw [hrun, Desk.files_noted]
  | error f => rw [runAt_load_of_error hthere]

/-- Keys of one name are one record. -/
theorem found_of_name (h : fileName key' = fileName key) (t : FileTree) :
    store.found key' t = store.found key t := by
  have hpath : store.recordPath key' = store.recordPath key := by rw [recordPath, recordPath, h]
  rw [found, found, document?, document?, hpath]

/-- A file of another name more does not change what is found. -/
theorem found_of_withFile (h : FileTree.WithFile q t u) (hq : q.getLast? ≠ some (fileName key)) :
    store.found key u = store.found key t := by
  have hthere : u.isThere (store.recordPath key) = t.isThere (store.recordPath key) := by
    refine h.isThere_eq fun place hplace => ?_
    rintro rfl
    exact hq (FileTree.getLast?_of_locate_child (fileName_ne_up key) hplace)
  rw [found, found, hthere, document?_of_withFile h hq]

/-! ### What a save changes -/

/-- What can be found stays while files and directories do. -/
theorem found_of_extends (h : t.Extends u) (hfound : store.found key t ≠ .ok none) :
    store.found key u = store.found key t := by
  unfold found FileTree.isThere document? readDocument? FileTree.readText at hfound ⊢
  cases hlookup : t.lookup (store.recordPath key) with
  | ok node => rw [h.lookup hlookup]
  | error f =>
      rw [hlookup] at hfound
      by_cases hlong : f = .nameTooLong
      · have hlocate : t.locate (store.recordPath key) = .error .nameTooLong := by
          subst hlong
          exact (FileTree.isThere_eq_error_iff.mp (by rw [FileTree.isThere, hlookup])).1
        have hlater := h.keepsDirectories.locate_nameTooLong hlocate
        rw [FileTree.lookup, hlater, hlong]
        rfl
      · cases f <;> first | exact absurd rfl hlong | exact absurd rfl hfound

/-- Where a way makes no difference to what is found, neither does a part of it. -/
theorem found_of_makesOnly {v : FileTree} (htu : t.MakesOnly u) (huv : u.MakesOnly v)
    (h : store.found key v = store.found key t) : store.found key u = store.found key t := by
  by_cases ht : store.found key t = .ok none
  · by_contra hu
    have hkept := found_of_extends huv.extends (fun hnone => hu (hnone.trans ht.symm))
    exact hu (hkept.symm.trans h)
  · exact found_of_extends htu.extends ht

/-- In a file of its own a document is found as its content is read. -/
theorem found_of_lookup {content : ByteArray}
    (h : t.lookup (store.recordPath key) = .ok (.file content)) :
    store.found key t = .ok (documentOf content) := by
  have hthere : t.isThere (store.recordPath key) = .ok true := by rw [FileTree.isThere, h]
  have hread : t.readText (store.recordPath key) = FileTree.decode content := by
    rw [FileTree.readText, h]
    rfl
  rw [found, hthere, document?, readDocument?, hread]
  rfl

/-- What has been saved is read as it was. -/
theorem documentOf_text (hwritable : doc.isWritable = true) (hnames : doc.NamesDistinct) :
    documentOf (String.ofList doc.text).toUTF8 = some doc := by
  have hreads := doc.readsBack_iff.mpr ⟨hwritable, hnames⟩
  unfold documentOf
  rw [FileTree.decode_toUTF8, String.toList_ofList, Json.unifyNewlines_text hreads]
  exact Json.parse?_text hreads

/-- Making the directories on the way to the records changes nothing that is found under a key. -/
def Settled (store : RecordStore) (key : String) (t : FileTree) : Prop :=
  store.found key (t.makeDirectories store.directory).1 = store.found key t

/-- What a save leaves is settled, and it changes only what is found under keys of its name, and
there only if it opens the record's file. -/
theorem Settled.leaves {content? : Option ByteArray} (h : store.Settled key t)
    (hleaves : store.Leaves key' t u content?) :
    store.Settled key u ∧
      (∀ content, content? = some content → fileName key' = fileName key →
        store.found key u = .ok (documentOf content)) ∧
      (content? = none ∨ fileName key' ≠ fileName key → store.found key u = store.found key t) := by
  cases hleaves with
  | made makes again =>
      have hway := FileTree.makesOnly_makeDirectories u store.directory
      rw [again] at hway
      have hfound := found_of_makesOnly makes hway h
      refine ⟨?_, nofun, fun _ => hfound⟩
      rw [Settled, again, hfound]
      exact h
  | @written content way write =>
      obtain ⟨place, hplace, hnode, rfl⟩ := FileTree.exists_place_of_write write
      refine ⟨?_, ?_, ?_⟩
      · -- the directories that have been made for the file are there still
        obtain ⟨dir, hdir, hdirectory, -⟩ := FileTree.exists_directory_of_locate_child
          (fileName_ne_up key') (FileTree.checkPath_of_makeDirectories way) hplace
        have hkeeps : (t.makeDirectories store.directory).1.KeepsDirectories
            ((t.makeDirectories store.directory).1.put place (.file content)) :=
          FileTree.keepsDirectories_put hnode
        rw [Settled, FileTree.makeDirectories_of_lookup (FileTree.lookup_eq_ok_iff.mpr
          ⟨dir, hkeeps.locate hdir, hkeeps.directory dir hdirectory⟩)]
      · rintro _ ⟨⟩ hname
        rw [← found_of_name hname]
        exact found_of_lookup (FileTree.lookup_of_write write)
      · rintro (hnone | hname)
        · cases hnone
        · rw [← h]
          refine found_of_withFile (FileTree.withFile_put hnode nofun) ?_
          rw [FileTree.getLast?_of_locate_child (fileName_ne_up key') hplace]
          exact fun hlast => hname (Option.some.inj hlast)

/-- What each call keeps. -/
theorem Settled.serve (h : store.Settled key d.files) (c : StoreCall)
    (hnames : ∀ key' doc, c = .save key' doc → doc.NamesDistinct) :
    store.Settled key (store.serve d c).2.files ∧
      store.found key (store.serve d c).2.files =
        match (store.serve d c).1.toList.find? fun s => fileName s.1 = fileName key with
        | some (_, left) => .ok left
        | none           => store.found key d.files := by
  cases c with
  | load key' =>
      rw [RecordStore.serve, files_runAt_load]
      exact ⟨h, rfl⟩
  | save key' doc =>
      obtain ⟨hsettled, hown, hother⟩ := h.leaves (store.leaves_savedAt key' doc d)
      simp only [RecordStore.serve, runAt_save_eq]
      refine ⟨hsettled, ?_⟩
      by_cases hname : fileName key' = fileName key
      · cases hdone : (store.savedAt key' doc d).2 with
        | true =>
            have hwritable := (saved_eq_true_iff.mp (saved_of_savedAt hdone)).2.1
            rw [hown _ (if_pos hdone) hname, documentOf_text hwritable (hnames key' doc rfl)]
            simp [hname]
        | false =>
            rw [hdone] at hown hother
            cases htaken : store.takenAt? key' doc d with
            | none => exact hother (.inl htaken)
            | some content => simp [hown content htaken hname, hname]
      · rw [hother (.inr hname)]
        cases (store.savedAt key' doc d).2 <;> cases store.takenAt? key' doc d <;> simp [hname]

/-- What all calls keep: under a key there is what has been put last into the record of its name. -/
theorem Settled.serveAll (h : store.Settled key d.files) (calls : List StoreCall)
    (hnames : ∀ key' doc, .save key' doc ∈ calls → doc.NamesDistinct) :
    store.found key (store.serveAll d calls).2.files =
      match (store.serveAll d calls).1.find? fun s => fileName s.1 = fileName key with
      | some (_, left) => .ok left
      | none           => store.found key d.files := by
  induction calls generalizing d with
  | nil => rfl
  | cons c cs ih =>
      obtain ⟨hsettled, hfound⟩ := h.serve c fun key' doc hc => hnames key' doc (hc ▸ .head _)
      have hrest := ih hsettled fun key' doc hmem => hnames key' doc (.tail _ hmem)
      rw [RecordStore.serveAll, List.find?_append]
      simp only [hrest]
      cases (store.serveAll (store.serve d c).2 cs).1.find?
          fun s => fileName s.1 = fileName key with
      | some s => rfl
      | none => exact hfound

end RecordStore

/-- **A store is a map from the names of its files to documents.**  Whatever is loaded and saved,
and whichever of the saves fail, loading under a key then gives the last document that has been
saved under a key of the same name, and if there is none it gives what it gave before.  Only a
device that gives out over the text of a document loses the one before it; what is loaded then is
what can be read of as much as has been taken.  Two keys are of the same name if they are the same
but for characters that are not safe: such keys share their record, and no others do.  The documents
are those whose objects have no two fields of one name; and making the directories on the way to the
store, which the first save does, must not by itself change what is loaded, as it does not where the
store's directory is there. -/
theorem load_after_calls (store : RecordStore) (key : String) (calls : List StoreCall) (d : Desk)
    (hnames : ∀ key' doc, .save key' doc ∈ calls → doc.NamesDistinct)
    (hmade : ((store.load key).runAt
        { d with files := (d.files.makeDirectories store.directory).1 }).1 =
      ((store.load key).runAt d).1) :
    ((store.load key).runAt (store.serveAll d calls).2).1 =
      match (store.serveAll d calls).1.find? fun s =>
          RecordStore.fileName s.1 = RecordStore.fileName key with
      | some (_, left) => .ok left
      | none           => ((store.load key).runAt d).1 := by
  simp only [RecordStore.runAt_load_fst] at hmade ⊢
  exact RecordStore.Settled.serveAll hmade calls hnames

/-- Two keys of one name and one of another; the device refuses one save before it opens the file,
and gives out in another when the first digit has been written. -/
theorem load_after_calls_of_three_keys :
    let store : RecordStore := ⟨⟨0, ["s"]⟩⟩
    let d : Desk := {
      files := ⟨[(["s"], .directory)], []⟩
      refusals := [none, none, some .opening, some (.writing 1)] }
    let calls : List StoreCall := [.save "a:b" (.int 12), .load "a/b", .save "a_c" (.int 2),
      .save "a_b" (.int 56), .save "a/c" (.int 34)]
    (∀ key' doc, .save key' doc ∈ calls → doc.NamesDistinct) ∧
      (d.files.makeDirectories store.directory).1 = d.files ∧
      ((store.load "a/b").runAt (store.serveAll d calls).2).1 = .ok (some (.int 12)) ∧
      ((store.load "a_c").runAt (store.serveAll d calls).2).1 = .ok (some (.int 3)) := by
  intro store d calls
  have hmade : d.files.makeDirectories store.directory = (d.files, .ok ()) :=
    FileTree.makeDirectories_of_lookup (by decide +kernel)
  have hnames : ∀ key' doc, .save key' doc ∈ calls → doc.NamesDistinct := by
    intro key' doc hmem
    simp only [calls, List.mem_cons, StoreCall.save.injEq, reduceCtorEq, List.not_mem_nil] at hmem
    rcases hmem with ⟨-, rfl⟩ | hmem | ⟨-, rfl⟩ | ⟨-, rfl⟩ | ⟨-, rfl⟩ | hmem
    · trivial
    · cases hmem
    · trivial
    · trivial
    · trivial
    · cases hmem
  refine ⟨hnames, by rw [hmade], ?_, ?_⟩
  · exact (load_after_calls store "a/b" calls d hnames (by rw [hmade])).trans (by
      dsimp only [store, d, calls]
      rfl)
  · exact (load_after_calls store "a_c" calls d hnames (by rw [hmade])).trans (by
      dsimp only [store, d, calls]
      rfl)

/-- What is saved under one key takes the place of what was saved under another. -/
theorem load_of_key_of_same_name :
    let store : RecordStore := ⟨⟨0, ["s"]⟩⟩
    let before := ((store.save "a:b" (.int 1)).runAt {}).2
    let after := ((store.save "a_b" (.int 2)).runAt before).2
    "a:b" ≠ "a_b" ∧ ((store.load "a:b").runAt before).1 = .ok (some (.int 1)) ∧
      ((store.load "a:b").runAt after).1 = .ok (some (.int 2)) :=
  ⟨by decide, rfl, rfl⟩

end Abacus

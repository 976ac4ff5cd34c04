import Abacus.Records
import Abacus.Proofs.Desk
import Abacus.Proofs.Files.Tree
import Abacus.Proofs.Json.RoundTrip

/-!
# Abacus — Records — Loading and saving

What loading and saving do at the desk.  Loading changes nothing but the notices and gives the
document that can be read, unless the question whether a file is there stays open
(`runAt_load`).  A save that succeeds leaves the text of the document in the record's file
(`Holds`), where it is read again (`Holds.document?_eq`); a save under a name leaves the files of
other names alone; one that fails is noted (`runAt_save`).
-/

namespace Abacus

namespace FileTree
variable {t : FileTree} {p : Path}

/-- A file that is not there cannot be read. -/
theorem readText_of_not_there (h : t.isThere p = .ok false) : ∃ f, t.readText p = .error f := by
  unfold isThere at h
  unfold readText
  cases hlookup : t.lookup p with
  | ok n => rw [hlookup] at h; cases h
  | error f => exact ⟨f, rfl⟩

end FileTree

namespace RecordStore
variable {store : RecordStore} {key : String} {d : Desk}

/-- The document that can be read under a key. -/
def document? (store : RecordStore) (key : String) (t : FileTree) : Option Json :=
  readDocument? t (store.recordPath key)

theorem document?_of_not_there {t : FileTree} (h : t.isThere (store.recordPath key) = .ok false) :
    store.document? key t = none := by
  obtain ⟨f, hf⟩ := FileTree.readText_of_not_there h
  simp [document?, readDocument?, hf]

/-- Loading gives the document that can be read, and at most writes notices. -/
theorem runAt_load {there : Bool} (h : d.files.isThere (store.recordPath key) = .ok there) :
    ∃ levels, (store.load key).runAt d =
      (.ok (store.document? key d.files), d.noted levels) := by
  rw [load, Attempt.runAt_bind_of_ok (Attempt.runAt_get d),
    Attempt.runAt_bind_of_ok (a := there) (by rw [Attempt.runAt_of, h])]
  cases there with
  | false => exact ⟨[], by simp [document?_of_not_there h]⟩
  | true =>
      simp only [if_true, document?]
      cases readDocument? d.files (store.recordPath key) with
      | some doc => exact ⟨[], by simp⟩
      | none => exact ⟨[.warning], Attempt.runAt_bind_of_ok (Attempt.runAt_lift _ d)⟩

theorem runAt_load_of_error {f : FileFailure}
    (h : d.files.isThere (store.recordPath key) = .error f) :
    (store.load key).runAt d = (.error f, d) := by
  rw [load, Attempt.runAt_bind_of_ok (Attempt.runAt_get d)]
  exact Attempt.runAt_bind_of_error (by rw [Attempt.runAt_of, h])

/-! ### Saving -/

/-- The file of a record holds the text of a document. -/
def Holds (store : RecordStore) (key : String) (doc : Json) (t : FileTree) : Prop :=
  t.lookup (store.recordPath key) = .ok (.file (String.ofList doc.text).toUTF8)

section Holding
variable {doc : Json} {t u : FileTree}

/-- A record that holds a document which can be read back shows it. -/
theorem Holds.document?_eq (h : store.Holds key doc t) (hdoc : doc.ReadsBack) :
    store.document? key t = some doc := by
  rw [document?, readDocument?, FileTree.readText_of_lookup h]
  simp only [String.toList_ofList, Json.unifyNewlines_text hdoc, Json.parse?_text hdoc]

theorem Holds.isThere (h : store.Holds key doc t) :
    t.isThere (store.recordPath key) = .ok true := by
  rw [FileTree.isThere, h]

theorem fileName_ne_up (key : String) : fileName key ≠ ".." := by
  intro h
  have hlength := congrArg String.length h
  rw [fileName, String.length_append] at hlength
  have : ".json".length = 5 ∧ "..".length = 2 := by decide
  omega

/-! ### What a save leaves -/

/-- What a save does to the files, and what it puts into the record's file if it opens it: it makes
directories on the way to the store, all of them unless it breaks off, and then it may write the
file. -/
inductive Leaves (store : RecordStore) (key : String) (t : FileTree) :
    FileTree → Option ByteArray → Prop where
  | made {u : FileTree} (makes : t.MakesOnly u)
      (again : u.makeDirectories store.directory = t.makeDirectories store.directory) :
      Leaves store key t u none
  | written {u : FileTree} {content : ByteArray}
      (way : (t.makeDirectories store.directory).2 = .ok ())
      (write : (t.makeDirectories store.directory).1.write (store.recordPath key) (.file content) =
        .ok u) :
      Leaves store key t u (some content)

/-- A save that has no more to do than to make the directories. -/
theorem leaves_makeDirectories (store : RecordStore) (key : String) (t : FileTree) :
    store.Leaves key t (t.makeDirectories store.directory).1 none :=
  .made (FileTree.makesOnly_makeDirectories t _) (FileTree.makeDirectories_again t _)

/-- What a save can come to: the directories are made, and the document's file is written or not. -/
theorem saved_cases (t : FileTree) (path directory : Path) (doc : Json) :
    saved t path directory doc = ((t.makeDirectories directory).1, false) ∨
      ∃ written, (t.makeDirectories directory).2 = .ok () ∧ doc.isWritable = true ∧
        (t.makeDirectories directory).1.writeText path (String.ofList doc.text) = .ok written ∧
        saved t path directory doc = (written, true) := by
  unfold saved
  generalize t.makeDirectories directory = made
  obtain ⟨made, result⟩ := made
  cases result with
  | error f => exact .inl rfl
  | ok _ =>
      by_cases hwritable : doc.isWritable = true
      · rw [Json.print?, if_pos hwritable]
        cases hwrite : made.writeText path (String.ofList doc.text) with
        | error f => exact .inl (by simp only [hwrite])
        | ok written => exact .inr ⟨written, rfl, hwritable, rfl, by simp only [hwrite]⟩
      · rw [Json.print?, if_neg hwritable]
        exact .inl rfl

/-- A save succeeds when the directory can be made, the document written, and the file too. -/
theorem saved_eq_true_iff {path directory : Path} :
    saved t path directory doc = (u, true) ↔ (t.makeDirectories directory).2 = .ok () ∧
      doc.isWritable = true ∧
        (t.makeDirectories directory).1.writeText path (String.ofList doc.text) = .ok u := by
  constructor
  · intro h
    rcases saved_cases t path directory doc with hcase | ⟨written, hmake, hwritable, hwrite, hcase⟩
    · cases hcase.symm.trans h
    · cases hcase.symm.trans h
      exact ⟨hmake, hwritable, hwrite⟩
  · rintro ⟨hmake, hwritable, hwrite⟩
    unfold saved
    rw [Json.print?, if_pos hwritable]
    simp only [hmake, hwrite]

/-- A save that nothing breaks off puts the whole text into the file, or does not open it. -/
theorem leaves_saved {done : Bool}
    (h : saved t (store.recordPath key) store.directory doc = (u, done)) :
    store.Leaves key t u (if done then some (String.ofList doc.text).toUTF8 else none) := by
  rcases saved_cases t (store.recordPath key) store.directory doc with
    hcase | ⟨written, hmake, -, hwrite, hcase⟩
  · cases hcase.symm.trans h
    exact leaves_makeDirectories ..
  · cases hcase.symm.trans h
    exact .written hmake hwrite

/-- One that breaks off puts the beginning of the text into it, or does not open it. -/
theorem leaves_brokenOff (store : RecordStore) (key : String) (t : FileTree) (doc : Json)
    (r : Refusal) :
    let (u, taken?) := brokenOff t (store.recordPath key) store.directory doc r
    store.Leaves key t u taken? ∧ ∀ content, taken? = some content →
      ∃ n, r = .writing n ∧ content = (String.ofList doc.text).toUTF8.extract 0 n := by
  cases r with
  | making n =>
      exact ⟨.made (FileTree.makesOnly_makeSome t _ n) (FileTree.makeDirectories_makeSome t _ n),
        nofun⟩
  | opening => exact ⟨leaves_makeDirectories .., nofun⟩
  | writing n =>
      have hleaves := leaves_makeDirectories store key t
      have hwritten {u : FileTree} {content : ByteArray} :
          (t.makeDirectories store.directory).2 = .ok () →
          (t.makeDirectories store.directory).1.write (store.recordPath key) (.file content) =
            .ok u → store.Leaves key t u (some content) := .written
      unfold brokenOff
      generalize t.makeDirectories store.directory = made at hleaves hwritten ⊢
      obtain ⟨made, result⟩ := made
      cases result with
      | error f => exact ⟨hleaves, nofun⟩
      | ok _ =>
          by_cases hwritable : doc.isWritable = true
          · rw [Json.print?, if_pos hwritable]
            cases hwrite : made.write (store.recordPath key)
                (.file ((String.ofList doc.text).toUTF8.extract 0 n)) with
            | error f => simpa only [hwrite] using ⟨hleaves, nofun⟩
            | ok cut =>
                simp only [hwrite]
                exact ⟨hwritten rfl hwrite, fun _ h => ⟨n, rfl, (Option.some.inj h).symm⟩⟩
          · rw [Json.print?, if_neg hwritable]
            exact ⟨hleaves, nofun⟩

/-- The files of other names are left alone. -/
theorem Holds.leaves {key' : String} {content? : Option ByteArray} (h : store.Holds key doc t)
    (hne : fileName key ≠ fileName key') (hleaves : store.Leaves key' t u content?) :
    store.Holds key doc u := by
  cases hleaves with
  | made makes _ => exact makes.extends.lookup h
  | written way write =>
      have hmade : store.Holds key doc (t.makeDirectories store.directory).1 :=
        (FileTree.extends_makeDirectories t store.directory).lookup h
      exact FileTree.lookup_child_of_write (fileName_ne_up key) (fileName_ne_up key') hne hmade
        write

/-- A document that has been saved is in the record's file. -/
theorem holds_of_saved (h : saved t (store.recordPath key) store.directory doc = (u, true)) :
    store.Holds key doc u :=
  FileTree.lookup_of_write (saved_eq_true_iff.mp h).2.2

end Holding

/-- The files after a save at a desk, and whether it succeeds. -/
def savedAt (store : RecordStore) (key : String) (doc : Json) (d : Desk) : FileTree × Bool :=
  match d.refusals.head?.getD none with
  | some r => ((brokenOff d.files (store.recordPath key) store.directory doc r).1, false)
  | none   => saved d.files (store.recordPath key) store.directory doc

/-- What a device that gives out in a save at a desk has taken of the text, if the record's file has
been opened by then. -/
def takenAt? (store : RecordStore) (key : String) (doc : Json) (d : Desk) : Option ByteArray :=
  (d.refusals.head?.getD none).bind fun r =>
    (brokenOff d.files (store.recordPath key) store.directory doc r).2

/-- What a save changes: the files, the refusals to come, and the notices if it fails. -/
theorem runAt_save_eq (store : RecordStore) (key : String) (doc : Json) (d : Desk) :
    (store.save key doc).runAt d =
      ((store.savedAt key doc d).2, { d with
        files := (store.savedAt key doc d).1
        refusals := d.refusals.tail
        notices := d.notices ++ if (store.savedAt key doc d).2 then [] else [.error] }) := by
  rw [savedAt]
  cases hrefusal : d.refusals.head?.getD none with
  | some r => simp [save, Desk.takeRefusal, hrefusal, Desk.noted]
  | none =>
      cases hsaved : saved d.files (store.recordPath key) store.directory doc with
      | mk files done =>
          cases done <;> simp [save, Desk.takeRefusal, hrefusal, hsaved, Desk.noted]

/-- A save that succeeds is one that nothing has broken off. -/
theorem saved_of_savedAt {doc : Json} (h : (store.savedAt key doc d).2 = true) :
    saved d.files (store.recordPath key) store.directory doc =
      ((store.savedAt key doc d).1, true) := by
  unfold savedAt at h ⊢
  split at h
  · cases h
  · exact Prod.ext rfl h

/-- Where no save is refused, it comes to what the files allow. -/
theorem savedAt_of_taken {doc : Json} (h : ∀ r ∈ d.refusals, r = none) :
    store.savedAt key doc d = saved d.files (store.recordPath key) store.directory doc := by
  have hnone : d.refusals.head?.getD none = none := by
    cases hd : d.refusals with
    | nil => rfl
    | cons r rs => exact h r (hd ▸ List.mem_cons_self)
  rw [savedAt, hnone]

/-- A save that succeeds leaves the document in the record's file, whole. -/
theorem holds_of_savedAt {doc : Json} {files : FileTree}
    (h : store.savedAt key doc d = (files, true)) : store.Holds key doc files := by
  have hsaved := saved_of_savedAt (show (store.savedAt key doc d).2 = true by rw [h])
  rw [h] at hsaved
  exact holds_of_saved hsaved

/-- What a save at a desk leaves: in the record's file the whole text if it succeeds, and otherwise
what the device has taken of it. -/
theorem leaves_savedAt (store : RecordStore) (key : String) (doc : Json) (d : Desk) :
    store.Leaves key d.files (store.savedAt key doc d).1
      (if (store.savedAt key doc d).2 then some (String.ofList doc.text).toUTF8
        else store.takenAt? key doc d) := by
  unfold savedAt takenAt?
  cases d.refusals.head?.getD none with
  | some r => exact (leaves_brokenOff store key d.files doc r).1
  | none => exact leaves_saved rfl

/-- A save that succeeds leaves the document in its file, and whether or not it does the files of
other names are left alone. -/
theorem runAt_save (store : RecordStore) (key : String) (doc : Json) (d : Desk) :
    ∃ files done, (store.save key doc).runAt d =
        (done, { d with
          files := files
          refusals := d.refusals.tail
          notices := d.notices ++ if done then [] else [.error] }) ∧
      (done = true → store.Holds key doc files) ∧
      ∀ key' doc', fileName key' ≠ fileName key → store.Holds key' doc' d.files →
        store.Holds key' doc' files :=
  ⟨_, _, runAt_save_eq store key doc d, fun hdone => holds_of_savedAt (Prod.ext rfl hdone),
    fun _ _ hne h => h.leaves hne (leaves_savedAt store key doc d)⟩

end RecordStore

/-- The desk after a document has been saved, if there is a store to save it in. -/
def Desk.afterSave (d : Desk) (store : Option RecordStore) (key : String) (doc : Json) : Desk :=
  match store with
  | none   => d
  | some s => ((s.save key doc).runAt d).2

/-- The number of errors that have been noted. -/
def Desk.errors (d : Desk) : ℕ :=
  d.notices.count .error

theorem Desk.errors_noted_info (d : Desk) : (d.noted [.info]).errors = d.errors := by
  simp [errors, noted]

theorem Desk.errors_noted_error (d : Desk) : (d.noted [.error]).errors = d.errors + 1 := by
  simp [errors, noted]

/-- Saving in a store leaves the files of the save, one refusal less, and an error noted if the save
has failed. -/
theorem Desk.afterSave_some (d : Desk) (s : RecordStore) (key : String) (doc : Json) :
    (d.afterSave (some s) key doc).files = (s.savedAt key doc d).1 ∧
      (d.afterSave (some s) key doc).refusals = d.refusals.tail ∧
      (d.afterSave (some s) key doc).errors =
        d.errors + if (s.savedAt key doc d).2 then 0 else 1 := by
  rw [afterSave, s.runAt_save_eq]
  refine ⟨rfl, rfl, ?_⟩
  cases (s.savedAt key doc d).2 <;> simp [errors, List.count_append]

/-- A save that notes no error has succeeded. -/
theorem Desk.savedAt_of_errors {d : Desk} {s : RecordStore} {key : String} {doc : Json}
    (h : (d.afterSave (some s) key doc).errors = d.errors) : (s.savedAt key doc d).2 = true := by
  have hcount := (d.afterSave_some s key doc).2.2
  by_contra hdone
  rw [h, if_neg hdone] at hcount
  omega

theorem Desk.errors_le_afterSave (d : Desk) (store : Option RecordStore) (key : String)
    (doc : Json) : d.errors ≤ (d.afterSave store key doc).errors := by
  cases store with
  | none => exact le_rfl
  | some s => exact le_of_le_of_eq (Nat.le_add_right _ _) (d.afterSave_some s key doc).2.2.symm

section AfterSave
variable (d : Desk) (store : Option RecordStore) (key : String) (doc : Json)

@[simp] theorem Desk.clock_afterSave : (d.afterSave store key doc).clock = d.clock := by
  cases store with
  | none => rfl
  | some s =>
      obtain ⟨files, done, hrun, -⟩ := s.runAt_save key doc d
      rw [Desk.afterSave, hrun]

@[simp] theorem Desk.lastId_afterSave : (d.afterSave store key doc).lastId = d.lastId := by
  cases store with
  | none => rfl
  | some s =>
      obtain ⟨files, done, hrun, -⟩ := s.runAt_save key doc d
      rw [Desk.afterSave, hrun]

end AfterSave

end Abacus

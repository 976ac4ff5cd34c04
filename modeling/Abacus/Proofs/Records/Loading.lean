import Abacus.Proofs.Files.Depth
import Abacus.Proofs.Files.Path
import Abacus.Proofs.Records.Saving

/-!
# Abacus — Records — What loading gives

Whatever the files are, loading gives the document of a record that can be read and nothing
otherwise, with one exception: when it cannot even be asked whether the record is there
(`load_of_files`).  That is so when the path to the record is too long or meets a name that is; in
a directory that is there, the name of a record's file is too long from 251 characters of its key on
(`RecordStore.isOutOfReach_iff_of_directory`).
-/

namespace Abacus

namespace FileTree
variable {t : FileTree} {p : Path} {place dir : Place} {name : String} {parts : List String}

/-- The way along some parts comes to a directory in which the next name is too long. -/
def MeetsLongName (t : FileTree) (place : Place) (parts : List String) : Prop :=
  ∃ front name back dir, parts = front ++ name :: back ∧
    front.foldlM t.enter place = .ok dir ∧ t.node? dir = some .directory ∧
    name ≠ ".." ∧ nameLimit < name.utf8ByteSize

/-- A way ends for the length of a name when it meets a name that is too long. -/
theorem foldlM_enter_eq_nameTooLong_iff :
    parts.foldlM t.enter place = .error .nameTooLong ↔ t.MeetsLongName place parts := by
  simp only [Except.foldlM_eq_error_iff, enter_eq_nameTooLong_iff]
  rfl

/-- A path is too long to be followed when it is so as a whole, or when it meets a name that is. -/
theorem locate_eq_nameTooLong_iff :
    t.locate p = .error .nameTooLong ↔ '\x00' ∉ p.text.toList ∧
      (pathLimit < p.text.utf8ByteSize ∨ t.MeetsLongName (t.origin p) p.parts) := by
  rw [locate, checkPath, ← foldlM_enter_eq_nameTooLong_iff]
  by_cases hnull : '\x00' ∈ p.text.toList
  · simp [hnull]
  · by_cases hsize : pathLimit < p.text.utf8ByteSize
    · simp [hnull, hsize]
    · simp [hnull, hsize]

/-- In a directory that is there, what counts is the length of the last name. -/
theorem meetsLongName_child_iff (hway : p.parts.foldlM t.enter (t.origin p) = .ok dir)
    (hdir : t.node? dir = some .directory) (hname : name ≠ "..") :
    t.MeetsLongName (t.origin p) (p.child name).parts ↔ nameLimit < name.utf8ByteSize := by
  rw [← foldlM_enter_eq_nameTooLong_iff, Path.child, List.foldlM_append, hway, Except.ok_bind,
    List.foldlM_cons]
  have hlast : t.enter dir name = .error .nameTooLong ↔ nameLimit < name.utf8ByteSize := by
    rw [enter_eq_nameTooLong_iff]
    exact ⟨fun h => h.2.2, fun h => ⟨hdir, hname, h⟩⟩
  rw [← hlast]
  cases t.enter dir name <;> simp [pure, Except.pure]

end FileTree

namespace RecordStore
variable {store : RecordStore} {key : String} {t : FileTree} {d : Desk} {doc : Json}

/-- The record's file can be read, and what it holds is the text of a document in UTF-8. -/
def Shows (store : RecordStore) (key : String) (t : FileTree) (doc : Json) : Prop :=
  ∃ content s, t.lookup (store.recordPath key) = .ok (.file content) ∧
    String.fromUTF8? content = some s ∧
      Json.parse? (String.ofList (Text.unifyNewlines s.toList)) = some doc

/-- A document is read exactly when the record shows it. -/
theorem document?_eq_some_iff : store.document? key t = some doc ↔ store.Shows key t doc := by
  unfold document? readDocument? FileTree.readText Shows
  cases hlookup : t.lookup (store.recordPath key) with
  | error f => simp
  | ok node =>
      cases node with
      | directory => simp [throw, throwThe, MonadExceptOf.throw]
      | archive a => simp [throw, throwThe, MonadExceptOf.throw]
      | file content =>
          simp only [Except.ok_bind, FileTree.decode]
          cases htext : String.fromUTF8? content with
          | none => simp [htext]
          | some s => simp [htext]

/-- It cannot be asked what is there under a key: the path to the record is too long, or meets a
name that is too long. -/
def IsOutOfReach (store : RecordStore) (key : String) (t : FileTree) : Prop :=
  '\x00' ∉ (store.recordPath key).text.toList ∧
    (FileTree.pathLimit < (store.recordPath key).text.utf8ByteSize ∨
      t.MeetsLongName (t.origin store.directory) (store.recordPath key).parts)

/-- It stays open whether a record is there exactly when it is out of reach. -/
theorem isThere_eq_error_iff {f : FileFailure} :
    t.isThere (store.recordPath key) = .error f ↔ f = .nameTooLong ∧ store.IsOutOfReach key t := by
  rw [FileTree.isThere_eq_error_iff, FileTree.locate_eq_nameTooLong_iff, and_comm]
  rfl

/-- What is out of reach shows nothing. -/
theorem not_shows_of_isThere {f : FileFailure}
    (h : t.isThere (store.recordPath key) = .error f) : ¬ store.Shows key t doc := by
  rintro ⟨content, s, hlookup, -⟩
  rw [FileTree.isThere, hlookup] at h
  cases h

theorem noted_of_load (store : RecordStore) (key : String) (d : Desk) :
    ∃ levels, ((store.load key).runAt d).2 = d.noted levels := by
  cases hthere : d.files.isThere (store.recordPath key) with
  | ok there =>
      obtain ⟨levels, hrun⟩ := runAt_load hthere
      exact ⟨levels, by rw [hrun]⟩
  | error f => exact ⟨[], by rw [runAt_load_of_error hthere, Desk.noted_nil]⟩

/-- Loading gives the document that the record shows. -/
theorem load_eq_some_iff :
    ((store.load key).runAt d).1 = .ok (some doc) ↔ store.Shows key d.files doc := by
  cases hthere : d.files.isThere (store.recordPath key) with
  | ok there =>
      obtain ⟨levels, hrun⟩ := runAt_load hthere
      rw [hrun, Except.ok.injEq, document?_eq_some_iff]
  | error f =>
      rw [runAt_load_of_error hthere]
      exact iff_of_false nofun (not_shows_of_isThere hthere)

/-- Loading fails for records that are out of reach. -/
theorem load_eq_error_iff {f : FileFailure} : ((store.load key).runAt d).1 = .error f ↔
    f = .nameTooLong ∧ store.IsOutOfReach key d.files := by
  rw [← isThere_eq_error_iff]
  cases hthere : d.files.isThere (store.recordPath key) with
  | ok there =>
      obtain ⟨levels, hrun⟩ := runAt_load hthere
      simp [hrun]
  | error g => simp [runAt_load_of_error hthere]

/-! ### The lengths of names -/

/-- The last of the letters is `z`. -/
theorem toNat_le_of_isAlphanum {c : Char} (h : c.isAlphanum = true) : c.val.toNat ≤ 122 := by
  change (decide (c.val ≥ 'A'.val ∧ c.val ≤ 'Z'.val) ||
    decide (c.val ≥ 'a'.val) && decide (c.val ≤ 'z'.val) ||
    decide (c.val ≥ '0'.val) && decide (c.val ≤ '9'.val)) = true at h
  simp only [Bool.or_eq_true, Bool.and_eq_true, decide_eq_true_eq, UInt32.le_iff_toNat_le] at h
  rcases h with (⟨-, h⟩ | ⟨-, h⟩) | ⟨-, h⟩
  · exact h.trans (by decide)
  · exact h
  · exact h.trans (by decide)

theorem utf8Size_of_isSafe {c : Char} (h : isSafe c = true) : c.utf8Size = 1 := by
  rw [Char.utf8Size_eq_one_iff, UInt32.le_iff_toNat_le]
  simp only [isSafe, Bool.or_eq_true, beq_iff_eq] at h
  rcases h with ((h | rfl) | rfl) | rfl
  · exact (toNat_le_of_isAlphanum h).trans (by decide)
  all_goals decide

/-- The name of a record's file has one byte for each character of the key, and five more. -/
theorem utf8ByteSize_fileName (key : String) :
    (fileName key).utf8ByteSize = key.length + 5 := by
  have hchars := isSafe_of_mem_fileName key
  rw [Text.utf8ByteSize_eq_length fun c hc => utf8Size_of_isSafe (hchars c hc), fileName,
    String.length_append, String.length_ofList, List.length_map, String.length_toList]
  rfl

/-- In a directory that is there, a record is out of reach exactly when its key has more than 250
characters. -/
theorem isOutOfReach_iff_of_directory {dir : Place} (hway : t.locate store.directory = .ok dir)
    (hdir : t.node? dir = some .directory)
    (hcheck : FileTree.checkPath (store.recordPath key) = .ok ()) :
    store.IsOutOfReach key t ↔ 250 < key.length := by
  have hshort : '\x00' ∉ (store.recordPath key).text.toList ∧
      ¬ FileTree.pathLimit < (store.recordPath key).text.utf8ByteSize := by
    unfold FileTree.checkPath at hcheck
    split_ifs at hcheck with hnull hlong
    exact ⟨by simpa using hnull, hlong⟩
  rw [FileTree.locate, FileTree.checkPath_of_child hcheck, Except.ok_bind] at hway
  have hlast := FileTree.meetsLongName_child_iff hway hdir (fileName_ne_up key)
  rw [utf8ByteSize_fileName] at hlast
  rw [IsOutOfReach, recordPath, hlast]
  simp only [recordPath] at hshort
  simp only [hshort, not_false_eq_true, true_and, false_or, FileTree.nameLimit]
  omega

end RecordStore

/-- **What loading gives.**  At any desk, and under any key, loading does nothing but write notices.
It gives a document exactly when the record's file can be read and holds the text of that document,
and it fails exactly when the record is out of reach, the path to it being too long; in all other
cases it gives nothing, for which callers have their default.  In a directory that is there the
records out of reach are those whose keys have more than 250 characters.

This is for a process that may read and search everything, trees having no permissions.  A record
that must not be read would be one more that gives nothing, and one in a directory that must not be
searched one more that is out of reach. -/
theorem load_of_files (store : RecordStore) (key : String) (d : Desk) :
    (∃ levels, ((store.load key).runAt d).2 = d.noted levels) ∧
    (∀ doc, ((store.load key).runAt d).1 = .ok (some doc) ↔ store.Shows key d.files doc) ∧
    (∀ f, ((store.load key).runAt d).1 = .error f ↔
      f = .nameTooLong ∧ store.IsOutOfReach key d.files) ∧
    (∀ dir, d.files.locate store.directory = .ok dir → d.files.node? dir = some .directory →
      FileTree.checkPath (store.recordPath key) = .ok () →
      (store.IsOutOfReach key d.files ↔ 250 < key.length)) :=
  ⟨store.noted_of_load key d, fun _ => RecordStore.load_eq_some_iff,
    fun _ => RecordStore.load_eq_error_iff, fun _ => RecordStore.isOutOfReach_iff_of_directory⟩

/-- A key of 300 characters cannot be loaded in a directory that is there. -/
theorem load_of_long_key :
    (((RecordStore.mk ⟨0, ["s"]⟩).load (String.ofList (List.replicate 300 'a'))).runAt
      { files := (FileTree.fresh.makeDirectories ⟨0, ["s"]⟩).1 }).1 = .error .nameTooLong := by
  have hway : (FileTree.fresh.makeDirectories ⟨0, ["s"]⟩).1.locate ⟨0, ["s"]⟩ =
      .ok ["work", "s"] := by decide +kernel
  have hdir : (FileTree.fresh.makeDirectories ⟨0, ["s"]⟩).1.node? ["work", "s"] =
      some .directory := by decide +kernel
  have hlength : (String.ofList (List.replicate 300 'a')).length = 300 := by
    rw [String.length_ofList, List.length_replicate]
  generalize String.ofList (List.replicate 300 'a') = key at hlength ⊢
  have htext : ((RecordStore.mk ⟨0, ["s"]⟩).recordPath key).text =
      "s/" ++ RecordStore.fileName key := by
    simp [RecordStore.recordPath, Path.child, Path.text, String.intercalate_cons_cons]
  have hcheck : FileTree.checkPath ((RecordStore.mk ⟨0, ["s"]⟩).recordPath key) = .ok () := by
    have hnull : '\x00' ∉ (RecordStore.fileName key).toList := fun hmem => by
      cases RecordStore.isSafe_of_mem_fileName key _ hmem
    have hsize := RecordStore.utf8ByteSize_fileName key
    unfold FileTree.checkPath
    rw [htext, String.toList_append, String.utf8ByteSize_append, hsize, hlength]
    rw [if_neg (by simpa using hnull), if_neg (by decide)]
  exact RecordStore.load_eq_error_iff.mpr
    ⟨rfl, (RecordStore.isOutOfReach_iff_of_directory hway hdir hcheck).mpr (by omega)⟩

end Abacus

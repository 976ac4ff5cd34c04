import Abacus.Proofs.Files.Agreement
import Abacus.Proofs.Records.Saving
import Abacus.Proofs.Session.Runs

/-!
# Abacus — Session — What keeps a session one that opens

A session opens on a tree of files when the records that the tree has are the session's
(`Session.OpensOn`).  It still does after one of its records has been saved (`Reopens.saved`), and
after a file has been put elsewhere (`Reopens.withFile`), with one proviso: making the directories
that were missing on the way to the records may bring records to light that could not be reached
before, and then the session is not the one that opens.  `RecordStore.HidesNothing` says that there
are none.
-/

namespace Abacus

/-- A name that can be asked for is not too long as a path. -/
theorem FileTree.checkPath_child {t : FileTree} {p : Path} {a b : String} {there : Bool}
    (ha : '\x00' ∉ a.toList) (hb : checkPath (p.child b) = .ok ())
    (h : t.isThere (p.child a) = .ok there) : checkPath (p.child a) = .ok () := by
  obtain ⟨front, hfront⟩ := p.exists_text_child
  have hnull : '\x00' ∉ (p.child a).text.toList := by
    unfold checkPath at hb
    split_ifs at hb with hcontains
    rw [hfront] at hcontains ⊢
    simp at hcontains ⊢
    exact ⟨hcontains.1, ha⟩
  have hsize : ¬ pathLimit < (p.child a).text.utf8ByteSize := by
    intro hlong
    have hlocate : t.locate (p.child a) = .error .nameTooLong :=
      locate_child_eq_nameTooLong_iff.mpr ⟨hnull, .inl hlong⟩
    rw [isThere_eq_error_iff.mpr ⟨hlocate, rfl⟩] at h
    cases h
  rw [checkPath, if_neg (by simpa using hnull), if_neg hsize]

/-! ### Records and their places -/

/-- The names of the session's own records are short enough. -/
theorem Record.fileName_size_le (r : Record) :
    (RecordStore.fileName r.key).utf8ByteSize ≤ FileTree.nameLimit := by
  cases r <;> decide

namespace RecordStore
variable {store : RecordStore} {key : String} {t u : FileTree} {place q : Place}

/-- The document in the file at a place. -/
def documentAt (t : FileTree) (place : Place) : Option Json :=
  match t.node? place with
  | some (.file bytes) =>
      match FileTree.decode bytes with
      | .ok text => Json.parse? text
      | .error _ => none
  | _ => none

/-- What a record shows is in what stands at its place. -/
theorem document?_of_locate (h : t.locate (store.recordPath key) = .ok place) :
    store.document? key t = documentAt t place := by
  rw [document?, readDocument?, FileTree.readText, FileTree.lookup, h, Except.ok_bind, documentAt]
  cases t.node? place with
  | none => rfl
  | some n => cases n <;> rfl

theorem document?_of_locate_eq_error {f : FileFailure}
    (h : t.locate (store.recordPath key) = .error f) : store.document? key t = none := by
  rw [document?, readDocument?, FileTree.readText, FileTree.lookup, h]
  rfl

theorem documentAt_congr (h : u.node? place = t.node? place) :
    documentAt u place = documentAt t place := by
  rw [documentAt, documentAt, h]

/-- A directory that has been made is no document. -/
theorem documentAt_of_made (hnone : t.node? place = none)
    (hdirectory : u.node? place = some .directory) : documentAt u place = documentAt t place := by
  rw [documentAt, documentAt, hnone, hdirectory]

/-- A save works in the same directory as before. -/
theorem here_of_saved {doc : Json}
    (h : saved t (store.recordPath key) store.directory doc = (u, true)) : u.here = t.here := by
  obtain ⟨-, -, hwrite⟩ := saved_eq_true_iff.mp h
  obtain ⟨q, -, hnode, rfl⟩ := FileTree.exists_place_of_write hwrite
  rw [FileTree.here_put, (FileTree.makesOnly_makeDirectories t store.directory).here]

/-- Whether it succeeds or not, a save takes no file and no directory away. -/
theorem Leaves.grows {content? : Option ByteArray} (h : store.Leaves key t u content?) :
    t.Grows u := by
  cases h with
  | made makes again => exact makes.grows
  | written way write =>
      obtain ⟨q, -, hnode, rfl⟩ := FileTree.exists_place_of_write write
      exact (FileTree.makesOnly_makeDirectories t store.directory).grows.trans
        (FileTree.grows_put hnode nofun)

/-- A save leaves the documents alone that lie under other names. -/
theorem documentAt_of_saved {doc : Json}
    (h : saved t (store.recordPath key) store.directory doc = (u, true))
    (hplace : place.getLast? ≠ some (fileName key)) : documentAt u place = documentAt t place := by
  by_cases hsame : u.node? place = t.node? place
  · exact documentAt_congr hsame
  · obtain ⟨hnone, hdirectory⟩ | ⟨_, dir, -, -, -, -, rfl⟩ := (leaves_saved h).node?_cases hsame
    · exact documentAt_of_made hnone hdirectory
    · exact absurd List.getLast?_concat hplace

/-- A record's place has the name of its file. -/
theorem getLast?_recordPlace (here : Place) (store : RecordStore) (key : String) :
    (FileTree.placeOf here (store.recordPath key)).getLast? = some (fileName key) := by
  rw [recordPath, FileTree.placeOf_child _ _ (fileName_ne_up key)]
  simp

/-- A file under another name is no part of a record. -/
theorem documentAt_of_withFile (h : FileTree.WithFile q t u)
    (hq : q.getLast? ≠ some (fileName key)) :
    documentAt u (FileTree.placeOf t.here (store.recordPath key)) =
      documentAt t (FileTree.placeOf t.here (store.recordPath key)) := by
  refine documentAt_congr (h.node _ ?_)
  rintro rfl
  exact hq (getLast?_recordPlace ..)

/-- A file of another name more does not change what a record shows. -/
theorem document?_of_withFile (h : FileTree.WithFile q t u)
    (hq : q.getLast? ≠ some (fileName key)) : store.document? key u = store.document? key t := by
  cases hlocate : t.locate (store.recordPath key) with
  | ok place =>
      rw [document?_of_locate hlocate, document?_of_locate (h.locate_eq_ok_iff.mpr hlocate),
        ← FileTree.placeOf_of_locate hlocate, documentAt_of_withFile h hq]
  | error f =>
      rw [document?_of_locate_eq_error hlocate]
      cases hlocate' : u.locate (store.recordPath key) with
      | ok place => cases hlocate.symm.trans (h.locate_eq_ok_iff.mp hlocate')
      | error g => exact document?_of_locate_eq_error hlocate'

/-- What can be saved beside a file could be saved without it. -/
theorem exists_saved_of_withFile {doc : Json} {v : FileTree} (h : FileTree.WithFile q t u)
    (hsaved : saved u (store.recordPath key) store.directory doc = (v, true)) :
    ∃ v', saved t (store.recordPath key) store.directory doc = (v', true) := by
  obtain ⟨hmake, hwritable, hwrite⟩ := saved_eq_true_iff.mp hsaved
  obtain ⟨hmake', hmade⟩ := h.makeDirectories hmake
  obtain ⟨place, hlocate, hnode, -⟩ := FileTree.exists_place_of_write hwrite
  exact ⟨_, saved_eq_true_iff.mpr ⟨hmake', hwritable, FileTree.write_of_locate
    (hmade.locate_eq_ok_iff.mp hlocate) (mt (hmade.directory_iff place).mpr hnode)⟩⟩

/-- No record lies where saves would put it but cannot be reached before a save makes the
directories on the way. -/
def HidesNothing (store : RecordStore) (t : FileTree) : Prop :=
  ∀ key doc u, saved t (store.recordPath key) store.directory doc = (u, true) →
    ∀ r : Record, store.document? r.key t =
      documentAt t (FileTree.placeOf t.here (store.recordPath r.key))

/-- After a save the way to every record can be followed. -/
theorem exists_locate_of_saved {key' : String} {doc : Json} {there : Bool}
    (hsize : (fileName key').utf8ByteSize ≤ FileTree.nameLimit)
    (hthere : t.isThere (store.recordPath key') = .ok there)
    (h : saved t (store.recordPath key) store.directory doc = (u, true)) :
    u.locate (store.recordPath key') = .ok (FileTree.placeOf t.here (store.recordPath key')) := by
  obtain ⟨hmake, -, hwrite⟩ := saved_eq_true_iff.mp h
  obtain ⟨q, hq, hnode, rfl⟩ := FileTree.exists_place_of_write hwrite
  have hkeeps : (t.makeDirectories store.directory).1.KeepsDirectories
      ((t.makeDirectories store.directory).1.put q (.file (String.ofList doc.text).toUTF8)) :=
    FileTree.keepsDirectories_put hnode
  have hchecked : FileTree.checkPath (store.recordPath key) = .ok () := by
    rw [FileTree.locate, Except.bind_eq_ok_iff] at hq
    exact hq.choose_spec.1
  obtain ⟨dir, hdir, hdirectory, -⟩ := FileTree.exists_directory_of_locate_child
    (fileName_ne_up key) (FileTree.checkPath_of_makeDirectories hmake) hq
  have hfold := hkeeps.locate hdir
  rw [FileTree.locate, FileTree.checkPath_of_makeDirectories hmake, Except.ok_bind] at hfold
  have hlocate : ((t.makeDirectories store.directory).1.put q
      (.file (String.ofList doc.text).toUTF8)).locate (store.recordPath key') =
        .ok (dir ++ [fileName key']) := by
    rw [recordPath, FileTree.locate_child,
      FileTree.checkPath_child (fileName_is_part key').2.1 hchecked hthere, Except.ok_bind, hfold,
      Except.ok_bind]
    exact FileTree.enter_eq_ok_iff.mpr
      ⟨hkeeps.directory _ hdirectory, .inr ⟨fileName_ne_up key', hsize, rfl⟩⟩
  have hplace := FileTree.placeOf_of_locate hlocate
  rw [hkeeps.here, (FileTree.makesOnly_makeDirectories t store.directory).here] at hplace
  rw [hlocate, hplace]

/-- Nothing is hidden if making the directories leaves the documents that can be read. -/
theorem hidesNothing_of_makeDirectories
    (hthere : ∀ r : Record, ∃ there, t.isThere (store.recordPath r.key) = .ok there)
    (h : ∀ r : Record, store.document? r.key (t.makeDirectories store.directory).1 =
      store.document? r.key t) : store.HidesNothing t := by
  intro key doc u hsaved r
  have hmade := FileTree.makesOnly_makeDirectories t store.directory
  have hlocate := exists_locate_of_saved r.fileName_size_le (hthere r).choose_spec hsaved
  obtain ⟨-, -, hwrite⟩ := saved_eq_true_iff.mp hsaved
  obtain ⟨q, -, hnode, rfl⟩ := FileTree.exists_place_of_write hwrite
  have hfile : Node.file (String.ofList doc.text).toUTF8 ≠ .directory := nofun
  rw [← h r, document?_of_locate
    ((FileTree.withFile_put hnode hfile).locate_eq_ok_iff.mp hlocate)]
  rcases hmade.node (FileTree.placeOf t.here (store.recordPath r.key)) with
    hsame | ⟨hnone, hdirectory⟩
  · exact documentAt_congr hsame
  · exact documentAt_of_made hnone hdirectory

end RecordStore

/-- A session that opens on a directory keeps its records there. -/
theorem Session.OpensOn.keptIn {s : Session} {directory : Path} {t : FileTree}
    (h : s.OpensOn directory t) : s.KeptIn ⟨directory⟩ := by
  obtain ⟨levels, hopen⟩ := OpensOn.openAt (d := { files := t }) h
  exact keptIn_of_openAt hopen

/-- A session that has recorded one entry more. -/
theorem Session.KeptIn.push {s : Session} {store : RecordStore} (h : s.KeptIn store) (e : Entry)
    (he : e.id ≠ "") :
    { s with history := { s.history with history := s.history.history.push e } : Session }.KeptIn
      store := by
  refine ⟨h.preferences_store, h.history_store, h.capacity, fun e' he' => ?_⟩
  rcases List.mem_cons.mp (List.mem_of_mem_take he') with rfl | he'
  · exact he
  · exact h.id_ne e' he'

/-- A session that has other preferences. -/
theorem Session.KeptIn.withPreferences {s : Session} {store : RecordStore} (h : s.KeptIn store)
    (q : Preferences) :
    { s with preferences := { s.preferences with preferences := q } : Session }.KeptIn store :=
  ⟨h.preferences_store, h.history_store, h.capacity, h.id_ne⟩

/-! ### Saves, and files put elsewhere -/

/-- A session that opens on a tree, also after saves have made the directories on the way to it. -/
structure Session.Reopens (s : Session) (directory : Path) (t : FileTree) : Prop
    extends OpensOn s directory t where
  hidesNothing : (RecordStore.mk directory).HidesNothing t

namespace Session.Reopens
variable {directory : Path} {s s₁ : Session} {t u : FileTree} {r : Record} {q : Place}

/-- A session whose record has been saved opens on what the save has left. -/
theorem saved (h : s.Reopens directory t) (hkept : s₁.KeptIn ⟨directory⟩)
    (hbuffer : s₁.buffer = s.buffer)
    (hothers : ∀ r' ≠ r, ∀ doc, r'.GivenBy s doc → r'.GivenBy s₁ doc)
    (hsaved : RecordStore.saved t ((RecordStore.mk directory).recordPath r.key) directory
      (r.document s₁) = (u, true)) : s₁.Reopens directory u := by
  have hlocate (r' : Record) : u.locate ((RecordStore.mk directory).recordPath r'.key) =
      .ok (FileTree.placeOf t.here ((RecordStore.mk directory).recordPath r'.key)) :=
    RecordStore.exists_locate_of_saved r'.fileName_size_le (h.isThere r').choose_spec hsaved
  have hhere : u.here = t.here := RecordStore.here_of_saved hsaved
  refine ⟨⟨hbuffer.trans h.buffer, hkept.preferences_store, hkept.history_store, fun r' => ?_,
    fun r' => ?_⟩, fun _ _ _ _ r' => ?_⟩
  · by_cases hr : r' = r
    · subst hr
      have hholds := RecordStore.holds_of_saved hsaved
      rw [hholds.document?_eq (Record.readsBack_document s₁ r')]
      exact Record.givenBy_document hkept r'
    · rw [RecordStore.document?_of_locate (hlocate r'), RecordStore.documentAt_of_saved
        hsaved, ← h.hidesNothing _ _ _ hsaved r']
      · exact hothers r' hr _ (h.given r')
      · rw [RecordStore.getLast?_recordPlace]
        exact fun hname => Record.fileName_key_ne hr (Option.some.inj hname)
  · refine FileTree.exists_isThere_iff.mpr ?_
    rw [hlocate r']
    nofun
  · rw [hhere, RecordStore.document?_of_locate (hlocate r')]

/-- A session opens as well on a tree where a file that is no record has been put. -/
theorem withFile (h : s.Reopens directory t) (hfile : FileTree.WithFile q t u)
    (hq : ∀ r : Record, q.getLast? ≠ some (RecordStore.fileName r.key)) :
    s.Reopens directory u := by
  refine ⟨⟨h.buffer, h.preferences_store, h.history_store, fun r => ?_, fun r => ?_⟩,
    fun key doc v hsaved r => ?_⟩
  · rw [RecordStore.document?_of_withFile hfile (hq r)]
    exact h.given r
  · exact FileTree.exists_isThere_iff.mpr fun hlong => FileTree.exists_isThere_iff.mp (h.isThere r)
      (hfile.keepsDirectories_back.locate_nameTooLong hlong)
  · obtain ⟨v', hsaved'⟩ := RecordStore.exists_saved_of_withFile hfile hsaved
    rw [RecordStore.document?_of_withFile hfile (hq r), hfile.here,
      RecordStore.documentAt_of_withFile hfile (hq r)]
    exact h.hidesNothing key doc v' hsaved' r

end Session.Reopens

end Abacus

import Abacus.Proofs.Records

/-!
# Abacus — Records — What a save does to the files

A save writes one file at most, and that one directly in the store's directory, whatever the key
(`Leaves.node?_cases`): the name that a key is kept under is one part of a path
(`isSafe_of_mem_fileName`).  What it makes besides are directories where there was nothing.  A
document that has been saved is loaded again, and after a save that fails every file is as it was,
unless the device has given out while the record was written (`save_then_load`).
-/

namespace Abacus

namespace FileTree
variable {t u : FileTree} {p : Path} {name : String} {place : Place}

/-- A name in a directory leads to that name at the directory's place. -/
theorem exists_directory_of_locate_child (hname : name ≠ "..") (hcheck : checkPath p = .ok ())
    (h : t.locate (p.child name) = .ok place) :
    ∃ dir, t.locate p = .ok dir ∧ t.node? dir = some .directory ∧ place = dir ++ [name] := by
  rw [locate_child, Except.bind_eq_ok_iff] at h
  obtain ⟨_, -, h⟩ := h
  obtain ⟨dir, hdir, h⟩ := Except.bind_eq_ok_iff.mp h
  obtain ⟨hnode, ⟨hup, -⟩ | ⟨-, -, hplace⟩⟩ := enter_eq_ok_iff.mp h
  · exact absurd hup hname
  · exact ⟨dir, by rw [locate, hcheck]; exact hdir, hnode, hplace⟩

end FileTree

namespace RecordStore

/-! ### Names of records -/

/-- The name of a record's file is made of letters, digits, points, underscores and hyphens. -/
theorem isSafe_of_mem_fileName (key : String) : ∀ c ∈ (fileName key).toList, isSafe c = true := by
  intro c hc
  rw [fileName, String.toList_append, String.toList_ofList, List.mem_append] at hc
  rcases hc with hc | hc
  · obtain ⟨b, -, rfl⟩ := List.mem_map.mp hc
    split
    · assumption
    · rfl
  · have hsafe : ".json".toList.all isSafe = true := by decide
    exact List.all_eq_true.mp hsafe c hc

/-- So it is one part of a path, and none of those that stand for a directory. -/
theorem fileName_is_part (key : String) :
    '/' ∉ (fileName key).toList ∧ '\x00' ∉ (fileName key).toList ∧
      fileName key ≠ "." ∧ fileName key ≠ ".." := by
  refine ⟨fun h => ?_, fun h => ?_, fun h => ?_, fileName_ne_up key⟩
  · cases isSafe_of_mem_fileName key _ h
  · cases isSafe_of_mem_fileName key _ h
  · have hlength := congrArg String.length h
    rw [fileName, String.length_append] at hlength
    have : ".json".length = 5 ∧ ".".length = 1 := by decide
    omega

/-! ### Changes to the files -/

variable {store : RecordStore} {key : String} {doc : Json} {t u : FileTree} {done : Bool}

/-- What a save changes in the files: it makes directories where there was nothing, and puts what it
writes into the record's file. -/
theorem Leaves.node?_cases {content? : Option ByteArray} (h : store.Leaves key t u content?)
    {place : Place} (hplace : u.node? place ≠ t.node? place) :
    t.node? place = none ∧ u.node? place = some .directory ∨
      ∃ content dir, content? = some content ∧ u.node? place = some (.file content) ∧
        u.locate store.directory = .ok dir ∧ u.node? dir = some .directory ∧
        place = dir ++ [fileName key] := by
  cases h with
  | made makes again => exact (makes.node place).elim (fun hsame => absurd hsame hplace) .inl
  | @written content way write =>
      have hmade := FileTree.makesOnly_makeDirectories t store.directory
      obtain ⟨q, hq, hnode, rfl⟩ := FileTree.exists_place_of_write write
      by_cases hne : place = q
      · subst hne
        obtain ⟨dir, hdir, hdirectory, hchild⟩ := FileTree.exists_directory_of_locate_child
          (fileName_ne_up key) (FileTree.checkPath_of_makeDirectories way) hq
        refine .inr ⟨content, dir, rfl, FileTree.node?_put_self ?_,
          (FileTree.keepsDirectories_put hnode).locate hdir,
          (FileTree.keepsDirectories_put hnode).directory _ hdirectory, hchild⟩
        rw [hchild]
        simp
      · rw [FileTree.node?_put_of_ne hne] at hplace ⊢
        exact (hmade.node place).elim (fun hsame => absurd hsame hplace) .inl

end RecordStore

/-- A device that is full when the file has been opened: the save fails, and the document that was
there is lost. -/
example :
    let store : RecordStore := ⟨⟨0, ["data"]⟩⟩
    let d := ((store.save "k" (.int 1)).runAt {}).2
    let cut := (store.save "k" (.int 2)).runAt { d with refusals := [some (.writing 0)] }
    ((store.load "k").runAt d).1 = .ok (some (.int 1)) ∧ cut.1 = false ∧
      ((store.load "k").runAt cut.2).1 = .ok none :=
  ⟨rfl, rfl, rfl⟩

end Abacus

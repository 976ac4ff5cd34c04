import Abacus.Proofs.Files.Tree

/-!
# Abacus — Files — How deep a path leads

A path leads no deeper than it has names, and less deep if one of its steps leads up
(`length_lt_of_foldlM_enter`); without such steps it leads to the place that its names give
(`eq_append_of_foldlM_enter`).  To follow a path and to write a file may fail for several reasons,
but never because something is no text (`ne_notText_of_write`).
-/

namespace Abacus

namespace Path

/-- A path to a file begins with that to its directory, unless the directory is where one is. -/
theorem exists_text_child_of_text {p : Path} (h : ¬(p.slashes = 0 ∧ p.parts = [])) (name : String) :
    ∃ rest, (p.child name).text = p.text ++ rest := by
  rw [text, text, if_neg h, if_neg (by simp [child])]
  by_cases hp : p.parts = []
  · exact ⟨name, by simp [child, hp]⟩
  · refine ⟨"/" ++ name, ?_⟩
    rw [child, String.intercalate_append_of_ne_nil hp (by simp), String.intercalate_singleton]
    simp only [String.append_assoc]

end Path

namespace FileTree
variable {t u : FileTree} {p : Path} {place q : Place} {parts : List String} {f : FileFailure}

theorem checkPath_eq_ok_iff :
    checkPath p = .ok () ↔ '\x00' ∉ p.text.toList ∧ p.text.utf8ByteSize ≤ pathLimit := by
  unfold checkPath
  split_ifs with hnull hlong
  · simp_all
  · simp_all
  · simp_all [Nat.not_lt.mp hlong]

/-- A path that may be followed may be followed up to its parent. -/
theorem checkPath_of_child {name : String} (h : checkPath (p.child name) = .ok ()) :
    checkPath p = .ok () := by
  by_cases hhere : p.slashes = 0 ∧ p.parts = []
  · obtain ⟨slashes, parts⟩ := p
    obtain ⟨rfl, rfl⟩ := hhere
    decide
  · obtain ⟨rest, hrest⟩ := p.exists_text_child_of_text hhere name
    rw [checkPath_eq_ok_iff, hrest, String.toList_append, List.mem_append, not_or,
      String.utf8ByteSize_append] at h
    exact checkPath_eq_ok_iff.mpr ⟨h.1.1, Nat.le_of_add_right_le h.2⟩

/-! ### Depth -/

/-- What a step leads to is no deeper than where it begins, or one name deeper. -/
theorem length_le_of_foldlM_enter (h : parts.foldlM t.enter place = .ok q) :
    q.length ≤ place.length + (parts.filter (· != "..")).length := by
  induction parts generalizing place with
  | nil =>
      cases h
      exact Nat.le_add_right ..
  | cons part parts ih =>
      rw [List.foldlM_cons, Except.bind_eq_ok_iff] at h
      obtain ⟨next, henter, hrest⟩ := h
      have hle := ih hrest
      obtain ⟨-, ⟨rfl, rfl⟩ | ⟨hup, -, rfl⟩⟩ := enter_eq_ok_iff.mp henter
      · rw [List.length_dropLast] at hle
        simp
        omega
      · simp [hup] at hle ⊢
        omega

/-- A path with a step that leads up leads less deep than it has other names. -/
theorem length_lt_of_foldlM_enter (hplace : place ≠ []) (hup : ".." ∈ parts)
    (h : parts.foldlM t.enter place = .ok q) :
    q.length < place.length + (parts.filter (· != "..")).length := by
  induction parts generalizing place with
  | nil => cases hup
  | cons part parts ih =>
      rw [List.foldlM_cons, Except.bind_eq_ok_iff] at h
      obtain ⟨next, henter, hrest⟩ := h
      obtain ⟨-, ⟨rfl, rfl⟩ | ⟨hpart, -, rfl⟩⟩ := enter_eq_ok_iff.mp henter
      · -- this step loses a name, and the others gain none but their own
        have hle := length_le_of_foldlM_enter hrest
        have := List.length_pos_iff.mpr hplace
        rw [List.length_dropLast] at hle
        simp
        omega
      · have hlt := ih (by simp) ((List.mem_cons.mp hup).resolve_left (Ne.symm hpart)) hrest
        simp [hpart] at hlt ⊢
        omega

/-- Without steps that lead up a path leads to the place that its names give. -/
theorem eq_append_of_foldlM_enter (hdown : ".." ∉ parts) (h : parts.foldlM t.enter place = .ok q) :
    q = place ++ parts ∧ ∀ part ∈ parts, part.utf8ByteSize ≤ nameLimit := by
  induction parts generalizing place with
  | nil =>
      cases h
      exact ⟨(List.append_nil _).symm, nofun⟩
  | cons part parts ih =>
      rw [List.foldlM_cons, Except.bind_eq_ok_iff] at h
      obtain ⟨next, henter, hrest⟩ := h
      obtain ⟨hpart, hdown⟩ := not_or.mp (mt List.mem_cons.mpr hdown)
      obtain ⟨-, ⟨hup, -⟩ | ⟨-, hsize, rfl⟩⟩ := enter_eq_ok_iff.mp henter
      · exact absurd hup.symm hpart
      · obtain ⟨rfl, hsizes⟩ := ih hdown hrest
        exact ⟨List.append_assoc .., List.forall_mem_cons.mpr ⟨hsize, hsizes⟩⟩

/-! ### Failures -/

/-- Only reading finds that bytes are no text. -/
theorem ne_notText_of_enter {part : String} (h : t.enter place part = .error f) : f ≠ .notText := by
  unfold enter at h
  grind

theorem ne_notText_of_checkPath (h : checkPath p = .error f) : f ≠ .notText := by
  unfold checkPath at h
  grind

theorem ne_notText_of_locate (h : t.locate p = .error f) : f ≠ .notText := by
  have hfold (parts : List String) (place : Place) (h : parts.foldlM t.enter place = .error f) :
      f ≠ .notText := by
    induction parts generalizing place with
    | nil => cases h
    | cons part parts ih =>
        rw [List.foldlM_cons] at h
        cases henter : t.enter place part with
        | error g =>
            rw [henter] at h
            cases h
            exact ne_notText_of_enter henter
        | ok next =>
            rw [henter] at h
            exact ih next h
  unfold locate at h
  cases hcheck : checkPath p with
  | error g =>
      rw [hcheck] at h
      cases h
      exact ne_notText_of_checkPath hcheck
  | ok _ =>
      rw [hcheck] at h
      exact hfold _ _ h

theorem ne_notText_of_write {node : Node} (h : t.write p node = .error f) : f ≠ .notText := by
  unfold write at h
  cases hlocate : t.locate p with
  | error g =>
      rw [hlocate] at h
      cases h
      exact ne_notText_of_locate hlocate
  | ok place =>
      rw [hlocate, Except.ok_bind] at h
      split at h <;> cases h
      nofun

end FileTree

end Abacus

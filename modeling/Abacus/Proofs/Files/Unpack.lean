import Abacus.Files.Unpack
import Abacus.Proofs.Files.Agreement
import Abacus.Proofs.Files.Depth
import Abacus.Proofs.Files.Path

/-!
# Abacus — Files — What is unpacked and what is read of it

A temporary directory is made where nothing is (`makeTemporary_eq_ok`), and in it there is room for
a file under every plain path (`IsEmptyDirectory.exists_unpackAt`).  Unpacking a file makes
directories and puts the file at one place; so what is read afterwards is its content if the path
leads to that place, and otherwise what was there before (`readText_of_unpackAt`).  On trees that
are equal but for one file all this comes to the same (`EqualBut.makeTemporary`,
`EqualBut.unpackAt`).
-/

namespace Abacus

/-- What is read of a node. -/
def Node.text : Node → Except FileFailure String
  | .directory  => .error .isADirectory
  | .file bytes => FileTree.decode bytes
  | .archive _  => .error .notText

theorem Path.name_within {p : Path} (h : p.parts ≠ []) (dir : Place) :
    (p.within dir).name = p.name := by
  unfold Path.within
  split
  · rw [Path.name, Path.name, List.getLast?_append_of_ne_nil _ h]
  · rfl

namespace FileTree
variable {t u v : FileTree} {p : Path} {place q dir : Place} {part : String} {parts : List String}
  {content : ByteArray} {f : FileFailure}

/-- A text is read in what its path finds. -/
theorem readText_eq (t : FileTree) (p : Path) : t.readText p = t.lookup p >>= Node.text := by
  unfold readText
  congr 1

/-! ### Temporary directories -/

/-- A directory at the end of its own way, with nothing in it. -/
structure IsEmptyDirectory (t : FileTree) (dir : Place) : Prop where
  way : t.locate ⟨1, dir⟩ = .ok dir
  node : t.node? dir = some .directory
  below : ∀ q, dir <+: q → q ≠ dir → t.node? q = none

/-- A path below a directory is followed from there. -/
theorem locate_within (h : t.locate ⟨1, dir⟩ = .ok dir) (parts : List String) :
    t.locate ⟨1, dir ++ parts⟩ =
      checkPath ⟨1, dir ++ parts⟩ >>= fun _ => parts.foldlM t.enter dir := by
  rw [locate, Except.bind_eq_ok_iff] at h
  obtain ⟨_, -, hway⟩ := h
  unfold locate
  congr 1
  funext _
  rw [List.foldlM_append]
  have horigin : t.origin ⟨1, dir ++ parts⟩ = t.origin ⟨1, dir⟩ := rfl
  rw [horigin, hway, Except.ok_bind]

/-- In an empty directory every name that is not too long leads to a place of its own, where nothing
is. -/
theorem IsEmptyDirectory.locate_name (h : t.IsEmptyDirectory dir) (hup : part ≠ "..")
    (hsize : part.utf8ByteSize ≤ nameLimit) (hcheck : checkPath ⟨1, dir ++ [part]⟩ = .ok ()) :
    t.locate ⟨1, dir ++ [part]⟩ = .ok (dir ++ [part]) ∧ t.node? (dir ++ [part]) = none := by
  refine ⟨?_, h.below _ (List.prefix_append ..) (by simp)⟩
  rw [locate_within h.way, hcheck, Except.ok_bind, List.foldlM_cons,
    enter_eq_ok_iff.mpr ⟨h.node, .inr ⟨hup, hsize, rfl⟩⟩]
  rfl

/-- A place is vacant when nothing stands at it or below it. -/
theorem isVacant_iff (h : place ≠ []) :
    t.isVacant place = true ↔ ∀ q, place <+: q → t.node? q = none := by
  simp only [isVacant, List.all_eq_true, Bool.not_eq_true', ← Bool.not_eq_true,
    List.isPrefixOf_iff_prefix]
  constructor
  · intro hall q hq
    have hne : q ≠ [] := by
      rintro rfl
      exact h (List.prefix_nil.mp hq)
    rw [node?_of_ne_nil hne, List.lookup_eq_none_iff]
    intro e he
    rw [bne_iff_ne]
    rintro rfl
    exact hall e he hq
  · intro hnone e he hprefix
    have hlookup := hnone e.1 hprefix
    have hne : e.1 ≠ [] := by
      intro hnil
      rw [hnil] at hprefix
      exact h (List.prefix_nil.mp hprefix)
    rw [node?_of_ne_nil hne, List.lookup_eq_none_iff] at hlookup
    simpa using hlookup e he

/-- The characters of a temporary directory's name are letters and digits, of one byte each. -/
theorem temporaryName_chars (n : ℕ) :
    (temporaryName n).toList.length = 11 ∧
      ∀ c ∈ (temporaryName n).toList, c.utf8Size = 1 ∧ c ≠ '\x00' ∧ c ≠ '.' := by
  have hdigit (k : ℕ) : (Nat.digitChar (k % 10)).utf8Size = 1 ∧
      Nat.digitChar (k % 10) ≠ '\x00' ∧ Nat.digitChar (k % 10) ≠ '.' := by
    have : ∀ d < 10, (Nat.digitChar d).utf8Size = 1 ∧
      Nat.digitChar d ≠ '\x00' ∧ Nat.digitChar d ≠ '.' := by decide
    exact this _ (Nat.mod_lt _ (by decide))
  simp only [temporaryName, String.toList_append, String.toList_ofList]
  refine ⟨rfl, fun c hc => ?_⟩
  rcases List.mem_append.mp hc with hc | hc
  · have htmp : c ∈ ['t', 'm', 'p'] := hc
    simp only [List.mem_cons, List.not_mem_nil, or_false] at htmp
    rcases htmp with rfl | rfl | rfl <;> decide
  · obtain ⟨i, -, rfl⟩ := List.mem_map.mp hc
    exact hdigit _

theorem utf8ByteSize_temporaryName (n : ℕ) : (temporaryName n).utf8ByteSize = 11 := by
  obtain ⟨hlength, hchars⟩ := temporaryName_chars n
  rw [Text.utf8ByteSize_eq_length fun c hc => (hchars c hc).1, ← String.length_toList, hlength]

theorem temporaryName_ne_up (n : ℕ) : temporaryName n ≠ ".." := by
  intro hup
  have := utf8ByteSize_temporaryName n
  rw [hup] at this
  cases this

/-- A place of which temporary directories are made. -/
def IsTemporary (dir : Place) : Prop :=
  ∃ n, dir = temporaryRoot ++ [temporaryName n]

theorem IsTemporary.up_not_mem (h : IsTemporary dir) : ".." ∉ dir := by
  obtain ⟨n, rfl⟩ := h
  simp [temporaryRoot, (temporaryName_ne_up n).symm]

theorem IsTemporary.length_eq (h : IsTemporary dir) : dir.length = 2 := by
  obtain ⟨n, rfl⟩ := h
  rfl

/-- A place for a temporary directory is vacant, and is where they are made. -/
theorem temporaryFrom_eq_some {n tries : ℕ} (h : t.temporaryFrom n tries = some place) :
    t.isVacant place = true ∧ IsTemporary place := by
  induction tries generalizing n with
  | zero => cases h
  | succ tries ih =>
      rw [temporaryFrom] at h
      split_ifs at h with hvacant
      · cases h
        exact ⟨hvacant, n, rfl⟩
      · exact ih h

/-- A path down from the place of a temporary directory has seventeen bytes more than its parts. -/
theorem IsTemporary.checkPath_iff (h : IsTemporary dir) (hparts : parts ≠ []) :
    checkPath ⟨1, dir ++ parts⟩ = .ok () ↔
      '\x00' ∉ (String.intercalate "/" parts).toList ∧
        (String.intercalate "/" parts).utf8ByteSize + 17 ≤ pathLimit := by
  obtain ⟨n, rfl⟩ := h
  have htext : (⟨1, temporaryRoot ++ [temporaryName n] ++ parts⟩ : Path).text =
      "/tmp/" ++ temporaryName n ++ "/" ++ String.intercalate "/" parts := by
    rw [Path.text, if_neg (by simp), String.intercalate_append_of_ne_nil (by simp) hparts,
      temporaryRoot, List.singleton_append, String.intercalate_cons_cons,
      String.intercalate_singleton]
    rfl
  have hnull : '\x00' ∉ (temporaryName n).toList :=
    fun h => ((temporaryName_chars n).2 _ h).2.1 rfl
  have hsizes : "/tmp/".utf8ByteSize = 5 ∧ "/".utf8ByteSize = 1 := ⟨rfl, rfl⟩
  have hslash : '\x00' ∉ "/tmp/".toList ∧ '\x00' ∉ "/".toList := by decide
  rw [checkPath_eq_ok_iff, htext]
  generalize String.intercalate "/" parts = text
  simp only [String.toList_append, List.mem_append, String.utf8ByteSize_append,
    utf8ByteSize_temporaryName, hsizes, hslash, hnull, false_or]
  exact and_congr_right fun _ => by omega

/-- The way to a temporary directory, where such directories are made. -/
theorem IsTemporary.locate_eq (h : IsTemporary dir)
    (hroot : t.node? temporaryRoot = some .directory) : t.locate ⟨1, dir⟩ = .ok dir := by
  have hchild : checkPath ((⟨1, dir⟩ : Path).child "a") = .ok () :=
    (h.checkPath_iff (by simp)).mpr ⟨by decide, by decide⟩
  have hcheck := checkPath_of_child hchild
  obtain ⟨n, rfl⟩ := h
  have hsize : (temporaryName n).utf8ByteSize ≤ nameLimit := by
    rw [utf8ByteSize_temporaryName]
    decide
  have hfirst : t.enter [] "tmp" = .ok ["tmp"] :=
    enter_eq_ok_iff.mpr ⟨rfl, .inr ⟨by decide, by decide, rfl⟩⟩
  have hlast : t.enter ["tmp"] (temporaryName n) = .ok ["tmp", temporaryName n] :=
    enter_eq_ok_iff.mpr ⟨hroot, .inr ⟨temporaryName_ne_up n, hsize, rfl⟩⟩
  rw [locate, hcheck, Except.ok_bind, origin, if_neg (by simp), temporaryRoot,
    List.singleton_append, List.foldlM_cons, hfirst, Except.ok_bind, List.foldlM_cons, hlast]
  rfl

/-- A temporary directory is made where there was nothing, and it is empty. -/
theorem makeTemporary_eq_ok (h : t.makeTemporary = .ok (u, dir)) :
    u.IsEmptyDirectory dir ∧ IsTemporary dir ∧ t.MakesOnly u := by
  unfold makeTemporary at h
  split at h
  case h_2 => cases h
  rename_i hroot
  split at h
  case h_2 => cases h
  rename_i hfrom
  cases h
  obtain ⟨hvacant, n, rfl⟩ := temporaryFrom_eq_some hfrom
  have hnone := (isVacant_iff (by simp)).mp hvacant
  refine ⟨⟨?_, node?_put_self (by simp), fun q hq hne => ?_⟩, ⟨n, rfl⟩,
    makesOnly_put (hnone _ List.prefix_rfl)⟩
  · exact IsTemporary.locate_eq ⟨n, rfl⟩ (by rw [node?_put_of_ne (by simp), hroot])
  · rw [node?_put_of_ne hne]
    exact hnone q hq

/-! ### Making what is missing -/

theorem makeDirectory_eq_ok_iff : t.makeDirectory p = .ok u ↔
    ∃ place, t.locate p = .ok place ∧ t.node? place = none ∧ u = t.put place .directory := by
  unfold makeDirectory
  rw [Except.bind_eq_ok_iff]
  refine exists_congr fun place => and_congr_right fun _ => ?_
  cases t.node? place <;>
    simp [pure, Except.pure, throw, throwThe, MonadExceptOf.throw, eq_comm]

/-- One step of the way: what is there need not be made, and otherwise the directory is made when
those above it have been. -/
theorem makeMissing_cases (t : FileTree) (dir : Place) (part : String) (above : List String) :
    t.makeMissing dir (part :: above) = (t, .ok ()) ∨
    (∃ f, t.makeMissing dir (part :: above) = ((t.makeMissing dir above).1, .error f) ∧
      ((t.makeMissing dir above).2 = .error f ∨
        (t.makeMissing dir above).1.makeDirectory ⟨1, dir ++ (part :: above).reverse⟩ =
          .error f)) ∨
    ∃ u, t.makeMissing dir (part :: above) = (u, .ok ()) ∧
      (t.makeMissing dir above).1.makeDirectory ⟨1, dir ++ (part :: above).reverse⟩ = .ok u := by
  rw [makeMissing]
  split_ifs
  · exact .inl rfl
  · generalize t.makeMissing dir above = rest
    obtain ⟨made, way⟩ := rest
    right
    dsimp only
    split
    case h_3 => exact .inl ⟨_, rfl, .inl rfl⟩
    all_goals
      cases made.makeDirectory ⟨1, dir ++ (part :: above).reverse⟩ with
      | ok u => exact .inr ⟨u, rfl, rfl⟩
      | error f => exact .inl ⟨f, rfl, .inr rfl⟩

/-- Making what is missing makes directories and nothing else. -/
theorem makesOnly_makeMissing (t : FileTree) (dir : Place) (parts : List String) :
    t.MakesOnly (t.makeMissing dir parts).1 := by
  induction parts with
  | nil => exact .refl t
  | cons part above ih =>
      rcases t.makeMissing_cases dir part above with hcase | ⟨f, hcase, -⟩ | ⟨u, hcase, hmake⟩
      · rw [hcase]
        exact .refl t
      · rw [hcase]
        exact ih
      · obtain ⟨place, -, hnone, rfl⟩ := makeDirectory_eq_ok_iff.mp hmake
        rw [hcase]
        exact ih.trans (makesOnly_put hnone)

theorem ne_notText_of_makeMissing (h : (t.makeMissing dir parts).2 = .error f) : f ≠ .notText := by
  induction parts generalizing f with
  | nil => cases h
  | cons part above ih =>
      rcases t.makeMissing_cases dir part above with
        hcase | ⟨g, hcase, habove | hmake⟩ | ⟨u, hcase, -⟩
      · rw [hcase] at h
        cases h
      · rw [hcase] at h
        cases h
        exact ih habove
      · rw [hcase] at h
        cases h
        rw [makeDirectory, Except.bind_eq_error_iff] at hmake
        rcases hmake with hlocate | ⟨place, -, hthere⟩
        · exact ne_notText_of_locate hlocate
        · split at hthere <;> cases hthere
          nofun
      · rw [hcase] at h
        cases h

/-- In an empty directory, a way of short names that does not lead up can be made, and an empty
directory is at its end. -/
theorem IsEmptyDirectory.exists_makeMissing (h : t.IsEmptyDirectory dir) (parts : List String)
    (hdown : ".." ∉ parts) (hshort : ∀ part ∈ parts, part.utf8ByteSize ≤ nameLimit)
    (hcheck : checkPath ⟨1, dir ++ parts.reverse⟩ = .ok ()) :
    ∃ u, t.makeMissing dir parts = (u, .ok ()) ∧ u.IsEmptyDirectory (dir ++ parts.reverse) := by
  induction parts with
  | nil => exact ⟨t, rfl, by rwa [List.reverse_nil, List.append_nil]⟩
  | cons part above ih =>
      obtain ⟨hpart, hdown⟩ := not_or.mp (mt List.mem_cons.mpr hdown)
      obtain ⟨hsize, hshort⟩ := List.forall_mem_cons.mp hshort
      have hplace : dir ++ (part :: above).reverse = dir ++ above.reverse ++ [part] := by simp
      rw [hplace] at hcheck ⊢
      have hchild : checkPath ((⟨1, dir ++ above.reverse⟩ : Path).child part) = .ok () := hcheck
      obtain ⟨u, hmade, hu⟩ := ih hdown hshort (checkPath_of_child hchild)
      obtain ⟨hlocate, hnone⟩ := hu.locate_name (Ne.symm hpart) hsize hcheck
      have hlookup : (t.lookup ⟨1, dir ++ above.reverse ++ [part]⟩).isOk = false := by
        cases hthere : t.lookup ⟨1, dir ++ above.reverse ++ [part]⟩ with
        | error f => rfl
        | ok n =>
            -- what is there before the way is made is there afterwards
            have hmakes := t.makesOnly_makeMissing dir above
            rw [hmade] at hmakes
            obtain ⟨q, hq, hn⟩ := lookup_eq_ok_iff.mp (hmakes.extends.lookup hthere)
            cases hlocate.symm.trans hq
            rw [hnone] at hn
            cases hn
      have hmake : u.makeDirectory ⟨1, dir ++ above.reverse ++ [part]⟩ =
          .ok (u.put (dir ++ above.reverse ++ [part]) .directory) :=
        makeDirectory_eq_ok_iff.mpr ⟨_, hlocate, hnone, rfl⟩
      refine ⟨u.put (dir ++ above.reverse ++ [part]) .directory, ?_, ?_, ?_, fun q hq hne => ?_⟩
      · rw [makeMissing, hplace, hlookup, hmade]
        simp only [Bool.false_eq_true, if_false, hmake]
      · exact (keepsDirectories_put (by rw [hnone]; nofun)).locate hlocate
      · exact node?_put_self (by simp)
      · rw [node?_put_of_ne hne]
        refine hu.below q ((List.prefix_append ..).trans hq) ?_
        rintro rfl
        have hlength := hq.length_le
        rw [List.length_append] at hlength
        exact absurd hlength (Nat.not_succ_le_self _)

/-! ### Unpacking a file -/

/-- Unpacking a file makes directories, and puts the file where its path leads. -/
theorem exists_of_unpackAt (h : t.unpackAt dir parts content = .ok u) :
    ∃ v place, t.MakesOnly v ∧ v.locate ⟨1, dir ++ parts⟩ = .ok place ∧
      v.node? place ≠ some .directory ∧ u = v.put place (.file content) := by
  have hmakes := t.makesOnly_makeMissing dir parts.dropLast.reverse
  unfold unpackAt at h
  generalize t.makeMissing dir parts.dropLast.reverse = made at h hmakes
  obtain ⟨v, way⟩ := made
  obtain ⟨_, -, hwrite⟩ := Except.bind_eq_ok_iff.mp h
  obtain ⟨place, hplace, hnode, hu⟩ := exists_place_of_write hwrite
  exact ⟨v, place, hmakes, hplace, hnode, hu⟩

theorem ne_notText_of_unpackAt (h : t.unpackAt dir parts content = .error f) : f ≠ .notText := by
  unfold unpackAt at h
  cases hmade : t.makeMissing dir parts.dropLast.reverse with
  | mk v way =>
      rw [hmade] at h
      rcases Except.bind_eq_error_iff.mp h with hway | ⟨_, -, hwrite⟩
      · exact ne_notText_of_makeMissing (by rw [hmade]; exact hway)
      · exact ne_notText_of_write hwrite

/-- In an empty directory there is room for a file under every path of short names that does not
lead up. -/
theorem IsEmptyDirectory.exists_unpackAt (h : t.IsEmptyDirectory dir) (hparts : parts ≠ [])
    (hdown : ".." ∉ parts) (hshort : ∀ part ∈ parts, part.utf8ByteSize ≤ nameLimit)
    (hcheck : checkPath ⟨1, dir ++ parts⟩ = .ok ()) (content : ByteArray) :
    ∃ u, t.unpackAt dir parts content = .ok u ∧
      u.lookup ⟨1, dir ++ parts⟩ = .ok (.file content) := by
  obtain ⟨above, part, rfl⟩ : ∃ above part, parts = above ++ [part] :=
    ⟨_, _, (List.dropLast_concat_getLast hparts).symm⟩
  simp only [List.mem_append, List.mem_singleton, not_or] at hdown
  rw [← List.append_assoc] at hcheck ⊢
  have hchild : checkPath ((⟨1, dir ++ above⟩ : Path).child part) = .ok () := hcheck
  obtain ⟨v, hmade, hv⟩ := h.exists_makeMissing above.reverse (by simpa using hdown.1)
    (fun name hname => hshort name (by simp_all))
    (by rw [List.reverse_reverse]; exact checkPath_of_child hchild)
  rw [List.reverse_reverse] at hv
  obtain ⟨hlocate, hnone⟩ := hv.locate_name (Ne.symm hdown.2) (hshort part (by simp)) hcheck
  have hwrite : v.write ⟨1, dir ++ above ++ [part]⟩ (.file content) = .ok _ :=
    write_of_locate hlocate (by rw [hnone]; nofun)
  refine ⟨_, ?_, lookup_of_write hwrite⟩
  rw [unpackAt, List.dropLast_concat, hmade, ← List.append_assoc]
  exact hwrite

/-- Unpacking takes no directory away, wherever it leads. -/
theorem keepsDirectories_of_unpackAt (h : t.unpackAt dir parts content = .ok u) :
    t.KeepsDirectories u := by
  obtain ⟨v, place, hmakes, -, hnode, rfl⟩ := exists_of_unpackAt h
  have hmade := hmakes.extends.keepsDirectories
  have hput : v.KeepsDirectories (v.put place (.file content)) := keepsDirectories_put hnode
  exact ⟨hput.here.trans hmade.here, fun q hq => hput.directory q (hmade.directory q hq)⟩

/-- What is read after a file has been unpacked is its content, if the path leads to where it has
been put, and otherwise what was there before, if anything was. -/
theorem readText_of_unpackAt (h : t.unpackAt dir parts content = .ok u) (p : Path) :
    (u.readText p = decode content ∧
      ∃ place, u.locate ⟨1, dir ++ parts⟩ = .ok place ∧ u.locate p = .ok place) ∨
    (∃ f, f ≠ .notText ∧ u.readText p = .error f) ∨
    ∃ place node, u.locate p = .ok place ∧ t.node? place = some node ∧ node ≠ .directory ∧
      u.readText p = node.text := by
  obtain ⟨v, place, hmakes, hplace, hnode, rfl⟩ := exists_of_unpackAt h
  have hkeeps : v.KeepsDirectories (v.put place (.file content)) := keepsDirectories_put hnode
  have hne : place ≠ [] := by
    rintro rfl
    exact hnode rfl
  rw [readText_eq]
  cases hp : (v.put place (.file content)).locate p with
  | error f =>
      refine .inr (.inl ⟨f, ne_notText_of_locate hp, ?_⟩)
      rw [lookup, hp]
      rfl
  | ok q =>
      by_cases hq : q = place
      · subst hq
        refine .inl ⟨?_, q, hkeeps.locate hplace, rfl⟩
        rw [lookup_eq_ok_iff.mpr ⟨q, hp, node?_put_self hne⟩]
        rfl
      · right
        have hthere : (v.put place (.file content)).node? q = v.node? q := node?_put_of_ne hq
        cases hn : v.node? q with
        | none =>
            refine .inl ⟨.notFound, nofun, ?_⟩
            rw [lookup, hp, Except.ok_bind, hthere, hn]
            rfl
        | some n =>
            rw [lookup_eq_ok_iff.mpr ⟨q, hp, hthere.trans hn⟩]
            by_cases hdirectory : n = .directory
            · subst hdirectory
              exact .inl ⟨.isADirectory, nofun, rfl⟩
            · exact .inr ⟨q, n, rfl, hmakes.node?_of_ne_directory hn hdirectory, hdirectory, rfl⟩

/-! ### Trees that are equal but for one file -/

namespace EqualBut
variable {h : Place} {R : ByteArray → ByteArray → Prop}

theorem isVacant_eq (heq : EqualBut h R t u) (hplace : place ≠ []) :
    u.isVacant place = t.isVacant place := by
  rw [Bool.eq_iff_iff, isVacant_iff hplace, isVacant_iff hplace]
  exact forall_congr' fun q => imp_congr_right fun _ => heq.vacant_iff q

theorem isOk_lookup_eq (heq : EqualBut h R t u) (p : Path) :
    (u.lookup p).isOk = (t.lookup p).isOk := by
  unfold lookup
  rw [heq.locate_eq]
  cases t.locate p with
  | error f => rfl
  | ok place =>
      rw [Except.ok_bind, Except.ok_bind]
      rcases heq.node place with hq | ⟨-, a, b, ha, hb, -⟩
      · rw [hq]
      · rw [ha, hb]
        rfl

/-- Both have the same place for a temporary directory. -/
theorem makeTemporary (heq : EqualBut h R t u) :
    Except.Alike (fun a b => EqualBut h R a.1 b.1 ∧ b.2 = a.2) t.makeTemporary u.makeTemporary := by
  have hfrom (tries n : ℕ) : u.temporaryFrom n tries = t.temporaryFrom n tries := by
    induction tries generalizing n with
    | zero => rfl
    | succ tries ih => rw [temporaryFrom, temporaryFrom, heq.isVacant_eq (by simp), ih]
  unfold FileTree.makeTemporary
  rw [hfrom]
  by_cases hroot : t.node? temporaryRoot = some .directory
  · rw [hroot, (heq.directory_iff _).mpr hroot]
    cases hplace : t.temporaryFrom 0 temporaryTries with
    | none => exact .error _
    | some place =>
        obtain ⟨-, n, rfl⟩ := temporaryFrom_eq_some hplace
        exact .ok ⟨heq.put (by simp) (.inl rfl), rfl⟩
  · have hroot' := mt (heq.directory_iff _).mp hroot
    split
    · contradiction
    · exact .error _

/-- Making a directory goes alike in both. -/
theorem makeDirectory (heq : EqualBut h R t u) (p : Path) :
    Except.Alike (EqualBut h R) (t.makeDirectory p) (u.makeDirectory p) := by
  unfold FileTree.makeDirectory
  rw [heq.locate_eq]
  cases t.locate p with
  | error f => exact .error f
  | ok place =>
      rw [Except.ok_bind, Except.ok_bind]
      cases hn : t.node? place with
      | none =>
          rw [(heq.vacant_iff place).mpr hn]
          refine .ok (heq.put ?_ (.inl rfl))
          rintro rfl
          cases hn
      | some n =>
          obtain ⟨m, hm⟩ := Option.ne_none_iff_exists'.mp
            (mt (heq.vacant_iff place).mp (by rw [hn]; nofun))
          rw [hm]
          exact .error _

theorem makeMissing (heq : EqualBut h R t u) (dir : Place) (parts : List String) :
    EqualBut h R (t.makeMissing dir parts).1 (u.makeMissing dir parts).1 ∧
      (u.makeMissing dir parts).2 = (t.makeMissing dir parts).2 := by
  induction parts with
  | nil => exact ⟨heq, rfl⟩
  | cons part above ih =>
      rw [FileTree.makeMissing, FileTree.makeMissing, heq.isOk_lookup_eq]
      split_ifs
      · exact ⟨heq, rfl⟩
      · generalize t.makeMissing dir above = made at ih ⊢
        generalize u.makeMissing dir above = made' at ih ⊢
        obtain ⟨v, way⟩ := made
        obtain ⟨v', way'⟩ := made'
        obtain ⟨hmade, rfl⟩ : EqualBut h R v v' ∧ way' = way := ih
        have hmake := hmade.makeDirectory ⟨1, dir ++ (part :: above).reverse⟩
        dsimp only
        split
        case h_3 => exact ⟨hmade, rfl⟩
        all_goals
          generalize v.makeDirectory ⟨1, dir ++ (part :: above).reverse⟩ = x at hmake ⊢
          generalize v'.makeDirectory ⟨1, dir ++ (part :: above).reverse⟩ = y at hmake ⊢
          cases hmake with
          | error f => exact ⟨hmade, rfl⟩
          | ok hput => exact ⟨hput, rfl⟩

/-- Unpacking leads to trees that are again equal but for that file, or fails alike. -/
theorem unpackAt (heq : EqualBut h R t u) (dir : Place) (parts : List String)
    (content : ByteArray) :
    Except.Alike (EqualBut h R) (t.unpackAt dir parts content) (u.unpackAt dir parts content) := by
  obtain ⟨hmade, hway⟩ := heq.makeMissing dir parts.dropLast.reverse
  unfold FileTree.unpackAt
  dsimp only
  rw [hway]
  refine (Except.Alike.refl (fun _ => rfl) _).bind fun _ _ _ => ?_
  rcases hmade.write fun _ _ => .inl rfl with ⟨f, hf, hf'⟩ | ⟨v, v', hv, hv', heq'⟩
  · rw [hf, hf']
    exact .error f
  · rw [hv, hv']
    exact .ok heq'

end EqualBut

end FileTree

namespace Archive
variable [SevenZip] {h : Place} {R : ByteArray → ByteArray → Prop} {t u : FileTree}

/-- A name is unpacked in both alike. -/
theorem unpack_alike (heq : FileTree.EqualBut h R t u) (a : Archive) (dir : Place) (name : String) :
    Except.Alike (FileTree.EqualBut h R) (a.unpack t dir name) (a.unpack u dir name) := by
  refine (Except.Alike.refl (fun _ => rfl) (a.files dir name)).bind ?_
  rintro files _ rfl
  exact Except.Alike.foldlM (fun _ _ _ h => (h.unpackAt ..).mapError _) files heq

end Archive

end Abacus

import Abacus.Proofs.Files.Path
import Abacus.Proofs.Files.Tree

/-!
# Abacus — Files — Trees that agree

Where a path leads, if it leads anywhere, is said by its parts alone (`placeOf_of_locate`).  Three
relations between trees follow from this.

* `Grows`: directories stay directories and files stay files.  Whatever is changed, trees grow.
* `EqualBut`: two trees are equal but for the content of one file.  Paths lead to the same places
  in both, directories are made and files are put in both alike (`EqualBut.makeDirectories`,
  `EqualBut.put`).
* `WithFile`: a tree has a file at one place and is equal to another elsewhere.  Where directories
  can be made beside the file, they can be made without it (`WithFile.makeDirectories`).
-/

namespace Abacus.FileTree
variable {t u v : FileTree} {p : Path} {place q : Place} {node : Node}

/-! ### Places -/

/-- A name in a directory stands right below it. -/
theorem placeOf_child (here : Place) (p : Path) {name : String} (hname : name ≠ "..") :
    placeOf here (p.child name) = placeOf here p ++ [name] := by
  rw [placeOf, Path.child, List.foldl_append, List.foldl_cons, List.foldl_nil,
    if_neg (by simpa using hname)]
  rfl

/-- Where a path leads does not depend on what is there. -/
theorem placeOf_of_locate (h : t.locate p = .ok place) : placeOf t.here p = place := by
  have hfold (parts : List String) (from_ : Place)
      (hparts : parts.foldlM t.enter from_ = .ok place) :
      parts.foldl (fun place part => if part == ".." then place.dropLast else place ++ [part])
        from_ = place := by
    induction parts generalizing from_ with
    | nil => exact Except.ok.inj hparts
    | cons part parts ih =>
        rw [List.foldlM_cons, Except.bind_eq_ok_iff] at hparts
        obtain ⟨next, hnext, hparts⟩ := hparts
        rw [List.foldl_cons, ← ih next hparts]
        obtain ⟨-, ⟨rfl, rfl⟩ | ⟨hup, -, rfl⟩⟩ := enter_eq_ok_iff.mp hnext
        · rfl
        · simp [hup]
  unfold locate at h
  rw [Except.bind_eq_ok_iff] at h
  obtain ⟨_, -, h⟩ := h
  exact hfold p.parts (t.origin p) h

/-- A way that is too long to be followed stays so while the directories stay. -/
theorem KeepsDirectories.locate_nameTooLong (h : t.KeepsDirectories u)
    (hp : t.locate p = .error .nameTooLong) : u.locate p = .error .nameTooLong := by
  have hfold (parts : List String) (from_ : Place)
      (hparts : parts.foldlM t.enter from_ = .error .nameTooLong) :
      parts.foldlM u.enter from_ = .error .nameTooLong := by
    induction parts generalizing from_ with
    | nil => cases hparts
    | cons part parts ih =>
        rw [List.foldlM_cons] at hparts ⊢
        cases hnext : t.enter from_ part with
        | ok next =>
            rw [hnext, Except.ok_bind] at hparts
            obtain ⟨hdirectory, hcase⟩ := enter_eq_ok_iff.mp hnext
            rw [enter_eq_ok_iff.mpr ⟨h.directory _ hdirectory, hcase⟩, Except.ok_bind]
            exact ih next hparts
        | error f =>
            rw [hnext, Except.error_bind] at hparts
            cases hparts
            obtain ⟨hdirectory, hcase⟩ := enter_eq_nameTooLong_iff.mp hnext
            rw [enter_eq_nameTooLong_iff.mpr ⟨h.directory _ hdirectory, hcase⟩, Except.error_bind]
  unfold FileTree.locate at hp ⊢
  cases hcheck : checkPath p with
  | error f => rw [hcheck] at hp; exact hp
  | ok _ =>
      rw [hcheck, Except.ok_bind] at hp
      rw [Except.ok_bind, show u.origin p = t.origin p by simp only [origin, h.here]]
      exact hfold p.parts (t.origin p) hp

/-! ### Trees that grow -/

/-- What is a directory stays one, and so does what is a file or an archive. -/
structure Grows (t u : FileTree) : Prop extends KeepsDirectories t u where
  file : ∀ q n, t.node? q = some n → n ≠ .directory → ∃ m, u.node? q = some m ∧ m ≠ .directory

theorem Grows.refl (t : FileTree) : t.Grows t :=
  ⟨⟨rfl, fun _ h => h⟩, fun _ n h hn => ⟨n, h, hn⟩⟩

theorem Grows.trans (h : t.Grows u) (h' : u.Grows v) : t.Grows v := by
  refine ⟨⟨h'.here.trans h.here, fun q hq => h'.directory q (h.directory q hq)⟩,
    fun q n hq hn => ?_⟩
  obtain ⟨m, hm, hne⟩ := h.file q n hq hn
  exact h'.file q m hm hne

theorem MakesOnly.grows (h : t.MakesOnly u) : t.Grows u :=
  ⟨h.extends.keepsDirectories, fun q n hn hne => ⟨n, h.extends.node q n hn, hne⟩⟩

/-- A file may be put wherever no directory is. -/
theorem grows_put (h : t.node? place ≠ some .directory) (hnode : node ≠ .directory) :
    t.Grows (t.put place node) := by
  refine ⟨keepsDirectories_put h, fun q n hn hne => ?_⟩
  by_cases hq : q = place
  · subst hq
    exact ⟨node, node?_put_self (by rintro rfl; exact h rfl), hnode⟩
  · exact ⟨n, by rw [node?_put_of_ne hq, hn], hne⟩

/-- A file that is there is there in a tree that has grown. -/
theorem Grows.isFile (h : t.Grows u) (hp : t.isFile p = .ok true) : u.isFile p = .ok true := by
  unfold FileTree.isFile at hp ⊢
  cases hlookup : t.lookup p with
  | error f => rw [hlookup] at hp; cases f <;> cases hp
  | ok n =>
      obtain ⟨place, hplace, hn⟩ := lookup_eq_ok_iff.mp hlookup
      have hne : n ≠ .directory := by
        rintro rfl
        rw [hlookup] at hp
        cases hp
      obtain ⟨m, hm, hm'⟩ := h.file place n hn hne
      rw [lookup_eq_ok_iff.mpr ⟨place, h.locate hplace, hm⟩]
      cases m with
      | directory => exact absurd rfl hm'
      | file | archive => rfl

/-- Where something has been written, it can be written again. -/
theorem Grows.exists_write (h : u.Grows v) (hwrite : t.write p node = .ok u)
    (hnode : node ≠ .directory) (n : Node) : ∃ w, v.write p n = .ok w := by
  obtain ⟨place, hplace, hn⟩ := lookup_eq_ok_iff.mp (lookup_of_write hwrite)
  obtain ⟨m, hm, hne⟩ := h.file place node hn hnode
  exact ⟨_, write_of_locate (h.locate hplace) (by simpa [hm] using hne)⟩

/-! ### Trees that are equal but for one file -/

/-- Two trees that hold the same at every place but one, and there files with contents that stand
in a relation, if not the same. -/
structure EqualBut (place : Place) (R : ByteArray → ByteArray → Prop) (t u : FileTree) : Prop where
  here : u.here = t.here
  node : ∀ q, u.node? q = t.node? q ∨
    q = place ∧ ∃ a b, t.node? q = some (.file a) ∧ u.node? q = some (.file b) ∧ R a b

namespace EqualBut
variable {h : Place} {R : ByteArray → ByteArray → Prop}

theorem refl (h : Place) (R : ByteArray → ByteArray → Prop) (t : FileTree) : EqualBut h R t t :=
  ⟨rfl, fun _ => .inl rfl⟩

/-- Everywhere but at that file, the same stands in both. -/
theorem node_of_ne (heq : EqualBut h R t u) (hq : q ≠ h) : u.node? q = t.node? q :=
  (heq.node q).resolve_right fun hp => hq hp.1

/-- The same places are directories, and the same ones are vacant. -/
theorem directory_iff (heq : EqualBut h R t u) (q : Place) :
    u.node? q = some .directory ↔ t.node? q = some .directory := by
  rcases heq.node q with hq | ⟨-, a, b, ha, hb, -⟩
  · rw [hq]
  · simp [ha, hb]

theorem vacant_iff (heq : EqualBut h R t u) (q : Place) :
    u.node? q = none ↔ t.node? q = none := by
  rcases heq.node q with hq | ⟨-, a, b, ha, hb, -⟩
  · rw [hq]
  · simp [ha, hb]

theorem grows (heq : EqualBut h R t u) : t.Grows u := by
  refine ⟨⟨heq.here, fun q => (heq.directory_iff q).mpr⟩, fun q n hn hne => ?_⟩
  rcases heq.node q with hq | ⟨-, a, b, ha, hb, -⟩
  · exact ⟨n, by rw [hq, hn], hne⟩
  · exact ⟨_, hb, nofun⟩

/-- Steps of paths see directories only, so they lead alike in both. -/
theorem enter_eq (heq : EqualBut h R t u) : u.enter = t.enter := by
  funext place part
  rcases heq.node place with hq | ⟨-, a, b, ha, hb, -⟩
  · rw [enter, enter, hq]
  · rw [enter, enter, ha, hb]

theorem origin_eq (heq : EqualBut h R t u) (p : Path) : u.origin p = t.origin p := by
  rw [origin, origin, heq.here]

theorem locate_eq (heq : EqualBut h R t u) (p : Path) : u.locate p = t.locate p := by
  rw [locate, locate, heq.enter_eq, heq.origin_eq]

/-- What is there in one is there in the other, that file included. -/
theorem isThere_eq (heq : EqualBut h R t u) (p : Path) : u.isThere p = t.isThere p := by
  unfold isThere lookup
  rw [heq.locate_eq]
  cases t.locate p with
  | error f => rfl
  | ok place =>
      simp only [Except.ok_bind]
      rcases heq.node place with hq | ⟨-, a, b, ha, hb, -⟩
      · rw [hq]
      · rw [ha, hb]
        rfl

/-- What a path finds is the same, unless it leads to that file. -/
theorem lookup_eq_of_ne (heq : EqualBut h R t u)
    (hp : ∀ place, t.locate p = .ok place → place ≠ h) :
    u.lookup p = t.lookup p := by
  unfold lookup
  rw [heq.locate_eq]
  cases hplace : t.locate p with
  | error f => rfl
  | ok place => rw [Except.ok_bind, Except.ok_bind, heq.node_of_ne (hp place hplace)]

/-- A path whose name is not that of the file finds the same in both. -/
theorem lookup_eq_of_name (heq : EqualBut h R t u) (hempty : p.name ≠ "") (hup : p.name ≠ "..")
    (hname : h.getLast? ≠ some p.name) : u.lookup p = t.lookup p := by
  refine heq.lookup_eq_of_ne ?_
  rintro place hplace rfl
  rw [Path.eq_child_of_name hempty] at hplace
  exact hname (getLast?_of_locate_child hup hplace)

/-- What is put at the same place of both may differ where they may differ already. -/
theorem put (heq : EqualBut h R t u) (hplace : place ≠ []) {n m : Node}
    (hnode : m = n ∨ place = h ∧ ∃ a b, n = .file a ∧ m = .file b ∧ R a b) :
    EqualBut h R (t.put place n) (u.put place m) := by
  refine ⟨by simp [heq.here], fun q => ?_⟩
  by_cases hq : q = place
  · subst hq
    rw [node?_put_self hplace, node?_put_self hplace]
    rcases hnode with rfl | ⟨hq, a, b, rfl, rfl, hR⟩
    · exact .inl rfl
    · exact .inr ⟨hq, a, b, rfl, rfl, hR⟩
  · rw [node?_put_of_ne hq, node?_put_of_ne hq]
    exact heq.node q

theorem makeStep (heq : EqualBut h R t u) (r : Except FileFailure Place) (part : String) :
    EqualBut h R (FileTree.makeStep (t, r) part).1 (FileTree.makeStep (u, r) part).1 ∧
      (FileTree.makeStep (u, r) part).2 = (FileTree.makeStep (t, r) part).2 := by
  cases r with
  | error f => exact ⟨heq, rfl⟩
  | ok place =>
      simp only [FileTree.makeStep, heq.enter_eq]
      cases t.enter place part with
      | error f => exact ⟨heq, rfl⟩
      | ok next =>
          simp only
          cases hnext : t.node? next with
          | none =>
              rw [(heq.vacant_iff next).mpr hnext]
              refine ⟨heq.put ?_ (.inl rfl), rfl⟩
              rintro rfl
              cases hnext
          | some n =>
              cases n with
              | directory =>
                  rw [(heq.directory_iff next).mpr hnext]
                  exact ⟨heq, rfl⟩
              | file | archive =>
                  cases hnext' : u.node? next with
                  | none => rw [(heq.vacant_iff next).mp hnext'] at hnext; cases hnext
                  | some m =>
                      cases m with
                      | directory => rw [(heq.directory_iff next).mp hnext'] at hnext; cases hnext
                      | file | archive => exact ⟨heq, rfl⟩

/-- Directories are made in both alike. -/
theorem makeDirectories (heq : EqualBut h R t u) (p : Path) :
    EqualBut h R (t.makeDirectories p).1 (u.makeDirectories p).1 ∧
      (u.makeDirectories p).2 = (t.makeDirectories p).2 := by
  have hfold (parts : List String) : ∀ (t u : FileTree) (r : Except FileFailure Place),
      EqualBut h R t u →
      EqualBut h R (parts.foldl FileTree.makeStep (t, r)).1
          (parts.foldl FileTree.makeStep (u, r)).1 ∧
        (parts.foldl FileTree.makeStep (u, r)).2 = (parts.foldl FileTree.makeStep (t, r)).2 := by
    induction parts with
    | nil => exact fun t u r heq => ⟨heq, rfl⟩
    | cons part parts ih =>
        intro t u r heq
        obtain ⟨hnext, hr⟩ := heq.makeStep r part
        have := ih _ _ (FileTree.makeStep (t, r) part).2 hnext
        rw [List.foldl_cons, List.foldl_cons]
        rwa [show FileTree.makeStep (u, r) part =
          ((FileTree.makeStep (u, r) part).1, (FileTree.makeStep (t, r) part).2) from
            Prod.ext rfl hr]
  obtain ⟨hmade, hr⟩ := hfold p.parts t u (.ok (t.origin p)) heq
  unfold FileTree.makeDirectories
  rw [heq.origin_eq]
  cases checkPath p with
  | error f => exact ⟨heq, rfl⟩
  | ok _ => exact ⟨hmade, congrArg (Except.map _) hr⟩

/-- Writing in both puts something at the same place of both, or fails in both. -/
theorem write (heq : EqualBut h R t u) {n m : Node}
    (hnode : ∀ place, t.locate p = .ok place →
      m = n ∨ place = h ∧ ∃ a b, n = .file a ∧ m = .file b ∧ R a b) :
    (∃ f, t.write p n = .error f ∧ u.write p m = .error f) ∨
      ∃ t' u', t.write p n = .ok t' ∧ u.write p m = .ok u' ∧ EqualBut h R t' u' := by
  cases hplace : t.locate p with
  | error f =>
      refine .inl ⟨f, ?_, ?_⟩
      · rw [FileTree.write, hplace]
        rfl
      · rw [FileTree.write, heq.locate_eq, hplace]
        rfl
  | ok place =>
      rw [FileTree.write, FileTree.write, heq.locate_eq, hplace]
      simp only [Except.ok_bind]
      by_cases hdirectory : t.node? place = some .directory
      · rw [hdirectory, (heq.directory_iff place).mpr hdirectory]
        exact .inl ⟨.isADirectory, rfl, rfl⟩
      · have hdirectory' := mt (heq.directory_iff place).mp hdirectory
        have hne : place ≠ [] := by rintro rfl; exact hdirectory rfl
        refine .inr ⟨_, _, ?_, ?_, heq.put hne (hnode place hplace)⟩
        · split
          · contradiction
          · rfl
        · split
          · contradiction
          · rfl

end EqualBut

/-! ### Trees with one file more -/

/-- A tree has a file, or an archive, at a place where another has no directory, and is equal to
it elsewhere. -/
structure WithFile (q : Place) (t u : FileTree) : Prop where
  here : u.here = t.here
  node : ∀ place ≠ q, u.node? place = t.node? place
  room : t.node? q ≠ some .directory
  file : ∃ n, u.node? q = some n ∧ n ≠ .directory

/-- A tree with a file put where no directory is has one file more. -/
theorem withFile_put (h : t.node? place ≠ some .directory) (hnode : node ≠ .directory) :
    WithFile place t (t.put place node) :=
  ⟨here_put .., fun _ hq => node?_put_of_ne hq, h,
    node, node?_put_self (by rintro rfl; exact h rfl), hnode⟩

namespace WithFile

/-- Both have the same directories. -/
theorem directory_iff (h : WithFile q t u) (place : Place) :
    u.node? place = some .directory ↔ t.node? place = some .directory := by
  by_cases hplace : place = q
  · subst hplace
    obtain ⟨n, hn, hne⟩ := h.file
    simp [hn, hne, h.room]
  · rw [h.node place hplace]

theorem keepsDirectories (h : WithFile q t u) : t.KeepsDirectories u :=
  ⟨h.here, fun place => (h.directory_iff place).mpr⟩

theorem keepsDirectories_back (h : WithFile q t u) : u.KeepsDirectories t :=
  ⟨h.here.symm, fun place => (h.directory_iff place).mp⟩

/-- A file more does not make or block a way. -/
theorem locate_eq_ok_iff (h : WithFile q t u) :
    u.locate p = .ok place ↔ t.locate p = .ok place :=
  ⟨h.keepsDirectories_back.locate, h.keepsDirectories.locate⟩

/-- Whether something is there can be told alike in both, but for the file itself. -/
theorem isThere_eq (h : WithFile q t u) (hp : ∀ place, t.locate p = .ok place → place ≠ q) :
    u.isThere p = t.isThere p := by
  unfold FileTree.isThere lookup
  cases hlocate : t.locate p with
  | ok place =>
      rw [h.locate_eq_ok_iff.mpr hlocate, Except.ok_bind, Except.ok_bind,
        h.node place (hp place hlocate)]
  | error f =>
      cases hlocate' : u.locate p with
      | ok place => cases hlocate.symm.trans (h.locate_eq_ok_iff.mp hlocate')
      | error g =>
          -- the ways fail for reasons that may differ, but both or neither for a long name
          have hlong : g = .nameTooLong ↔ f = .nameTooLong := by
            constructor
            · rintro rfl
              have hback := h.keepsDirectories_back.locate_nameTooLong hlocate'
              exact Except.error.inj (hlocate.symm.trans hback)
            · rintro rfl
              have hforth := h.keepsDirectories.locate_nameTooLong hlocate
              exact Except.error.inj (hlocate'.symm.trans hforth)
          by_cases hf : f = .nameTooLong
          · rw [hf, hlong.mpr hf, Except.error_bind, Except.error_bind]
          · have hg := mt hlong.mp hf
            cases f <;> cases g <;> first | rfl | exact absurd rfl hf | exact absurd rfl hg

/-- A step goes past the file as it would without it. -/
theorem makeStep (h : WithFile q t u) {place next : Place} {part : String} {u' : FileTree}
    (hstep : FileTree.makeStep (u, .ok place) part = (u', .ok next)) :
    ∃ t', FileTree.makeStep (t, .ok place) part = (t', .ok next) ∧ WithFile q t' u' := by
  obtain ⟨henter, hnext⟩ := makeStep_eq_ok_iff.mp hstep
  obtain ⟨hdirectory, hcase⟩ := enter_eq_ok_iff.mp henter
  have henter' : t.enter place part = .ok next :=
    enter_eq_ok_iff.mpr ⟨(h.directory_iff place).mp hdirectory, hcase⟩
  obtain ⟨n, hn, hfile⟩ := h.file
  have hne : next ≠ q := by
    rintro rfl
    rcases hnext with ⟨hthere, -⟩ | ⟨hnone, -⟩
    · exact hfile (Option.some.inj (hn.symm.trans hthere))
    · exact nomatch hn.symm.trans hnone
  rw [h.node next hne] at hnext
  rcases hnext with ⟨hthere, rfl⟩ | ⟨hnone, rfl⟩
  · exact ⟨t, makeStep_eq_ok_iff.mpr ⟨henter', .inl ⟨hthere, rfl⟩⟩, h⟩
  · have hroot : next ≠ [] := by rintro rfl; cases hnone
    refine ⟨_, makeStep_eq_ok_iff.mpr ⟨henter', .inr ⟨hnone, rfl⟩⟩, by simp [h.here],
      fun p hp => ?_, ?_, ?_⟩
    · by_cases heq : p = next
      · subst heq
        rw [node?_put_self hroot, node?_put_self hroot]
      · rw [node?_put_of_ne heq, node?_put_of_ne heq, h.node p hp]
    · rw [node?_put_of_ne hne.symm]
      exact h.room
    · rw [node?_put_of_ne hne.symm]
      exact h.file

/-- Away from the file, making directories goes on as it would without it. -/
theorem makeDirectories (h : WithFile q t u) (hmade : (u.makeDirectories p).2 = .ok ()) :
    (t.makeDirectories p).2 = .ok () ∧
      WithFile q (t.makeDirectories p).1 (u.makeDirectories p).1 := by
  have hfold (parts : List String) : ∀ (t u : FileTree) (place last : Place), WithFile q t u →
      (parts.foldl FileTree.makeStep (u, .ok place)).2 = .ok last →
      (parts.foldl FileTree.makeStep (t, .ok place)).2 = .ok last ∧
        WithFile q (parts.foldl FileTree.makeStep (t, .ok place)).1
          (parts.foldl FileTree.makeStep (u, .ok place)).1 := by
    induction parts with
    | nil => exact fun t u place last h hlast => ⟨hlast, h⟩
    | cons part parts ih =>
        intro t u place last h hlast
        rw [List.foldl_cons] at hlast ⊢
        rw [List.foldl_cons]
        cases hstep : FileTree.makeStep (u, .ok place) part with
        | mk u' r =>
            rw [hstep] at hlast
            cases r with
            | error f =>
                rw [foldl_makeStep_error] at hlast
                cases hlast
            | ok next =>
                obtain ⟨t', hstep', h'⟩ := h.makeStep hstep
                rw [hstep']
                exact ih t' u' next last h' hlast
  have hcheck := checkPath_of_makeDirectories hmade
  have horigin : u.origin p = t.origin p := by rw [origin, origin, h.here]
  unfold FileTree.makeDirectories at hmade ⊢
  simp only [hcheck, horigin] at hmade ⊢
  cases hlast : (p.parts.foldl FileTree.makeStep (u, .ok (t.origin p))).2 with
  | error f => rw [hlast] at hmade; cases hmade
  | ok last =>
      obtain ⟨hok, hwith⟩ := hfold p.parts t u (t.origin p) last h hlast
      exact ⟨by rw [hok]; rfl, hwith⟩

end WithFile

end Abacus.FileTree

import Abacus.Files.Tree
import Abacus.Proofs.Except

/-!
# Abacus — Files — What a change leaves alone

Putting a node somewhere changes that place only (`node?_put_of_ne`), so a path leads where it led
as long as the directories on the way stay (`KeepsDirectories.locate`).  Making directories makes
nothing else and takes nothing away (`makesOnly_makeDirectories`), and writing puts a file at the
place where the path leads (`exists_place_of_write`).

A name in a directory leads to a place of that name (`getLast?_of_locate_child`), so files of two
names do not meet, and the question whether a file is there has an answer for every name that is no
longer than one for which it has one (`isThere_child_of_le`).
-/

namespace Abacus

namespace Path

/-- The text of a path to a file is one text, and the file's name behind it. -/
theorem exists_text_child (p : Path) :
    ∃ front : String, ∀ name, (p.child name).text = front ++ name := by
  have hparts : ∃ front : String,
      ∀ name, String.intercalate "/" (p.parts ++ [name]) = front ++ name := by
    by_cases hp : p.parts = []
    · exact ⟨"", fun name => by simp [hp]⟩
    · exact ⟨String.intercalate "/" p.parts ++ "/", fun name => by
        rw [String.intercalate_append_of_ne_nil hp (by simp), String.intercalate_singleton]⟩
  obtain ⟨front, hfront⟩ := hparts
  refine ⟨String.ofList (List.replicate p.slashes '/') ++ front, fun name => ?_⟩
  rw [text, if_neg (by simp [child])]
  simp only [child, hfront, String.append_assoc]

end Path

namespace FileTree
variable {t u : FileTree} {p : Path} {place q : Place} {node : Node}

/-! ### Putting -/

theorem node?_of_ne_nil (h : place ≠ []) : t.node? place = t.entries.lookup place := by
  cases place with
  | nil => exact absurd rfl h
  | cons part parts => rfl

/-- Putting something else at a place leaves every other place as it is. -/
theorem lookup_replace (es : List (Place × Node)) (place q : Place) (node : Node) :
    (es.map fun e => if e.1 == place then (place, node) else e).lookup q =
      if q = place then (es.lookup place).map fun _ => node else es.lookup q := by
  simp only [beq_iff_eq]
  induction es with
  | nil => simp
  | cons e es ih =>
      obtain ⟨r, n⟩ := e
      by_cases hr : r = place
      · subst hr
        by_cases hq : q = r
        · simp [hq]
        · rw [if_neg hq] at ih ⊢
          simp [ih, List.lookup_cons, beq_eq_false_iff_ne.mpr hq]
      · by_cases hq : q = place
        · subst hq
          rw [if_pos rfl] at ih ⊢
          simp [ih, hr, List.lookup_cons, beq_eq_false_iff_ne.mpr (Ne.symm hr)]
        · rw [if_neg hq] at ih ⊢
          simp [ih, hr, List.lookup_cons]

@[simp] theorem here_put (t : FileTree) (place : Place) (node : Node) :
    (t.put place node).here = t.here := by
  unfold put
  split <;> rfl

/-- What is put at a place is found there, and nothing else changes. -/
theorem lookup_put (t : FileTree) (place q : Place) (node : Node) :
    (t.put place node).entries.lookup q = if q = place then some node else t.entries.lookup q := by
  unfold put
  split
  · next h =>
      obtain ⟨n, hn⟩ := Option.isSome_iff_exists.mp h
      simp only [lookup_replace, hn, Option.map_some]
  · next h =>
      have hnone : t.entries.lookup place = none := Option.not_isSome_iff_eq_none.mp h
      by_cases hq : q = place
      · subst hq
        simp [List.lookup_append, hnone]
      · simp [List.lookup_append, hq, List.lookup_cons, beq_eq_false_iff_ne.mpr hq]

theorem node?_put_self (h : place ≠ []) : (t.put place node).node? place = some node := by
  rw [node?_of_ne_nil h, lookup_put, if_pos rfl]

theorem node?_put_of_ne (h : q ≠ place) : (t.put place node).node? q = t.node? q := by
  cases q with
  | nil => rfl
  | cons part parts =>
      rw [node?_of_ne_nil (List.cons_ne_nil _ _), node?_of_ne_nil (List.cons_ne_nil _ _),
        lookup_put, if_neg h]

/-! ### Where paths lead -/

/-- The directories of one tree are directories of another, and work is done in the same one. -/
structure KeepsDirectories (t u : FileTree) : Prop where
  here : u.here = t.here
  directory : ∀ q, t.node? q = some .directory → u.node? q = some .directory

/-- All that one tree holds is in another, at the same place. -/
structure Extends (t u : FileTree) : Prop where
  here : u.here = t.here
  node : ∀ q n, t.node? q = some n → u.node? q = some n

theorem Extends.keepsDirectories (h : t.Extends u) : t.KeepsDirectories u :=
  ⟨h.here, fun q hq => h.node q _ hq⟩

/-- A node put where no directory is takes none away. -/
theorem keepsDirectories_put (h : t.node? place ≠ some .directory) :
    t.KeepsDirectories (t.put place node) := by
  refine ⟨here_put .., fun q hq => ?_⟩
  have hne : q ≠ place := by rintro rfl; exact h hq
  rw [node?_put_of_ne hne, hq]

/-- A step leads up, or down by a name that is not too long, and only from a directory. -/
theorem enter_eq_ok_iff {part : String} :
    t.enter place part = .ok q ↔
      t.node? place = some .directory ∧
        (part = ".." ∧ q = place.dropLast ∨
          part ≠ ".." ∧ part.utf8ByteSize ≤ nameLimit ∧ q = place ++ [part]) := by
  unfold enter
  cases t.node? place with
  | none => simp
  | some n =>
      cases n with
      | directory =>
          by_cases hup : part = ".."
          · simp [hup, eq_comm]
          · by_cases hsize : part.utf8ByteSize ≤ nameLimit
            · simp [hup, hsize, Nat.not_lt.mpr hsize, @eq_comm _ q]
            · simp [hup, hsize, Nat.lt_of_not_le hsize]
      | file | archive => simp

theorem KeepsDirectories.foldlM_enter (h : t.KeepsDirectories u) {parts : List String} :
    ∀ {place : Place}, parts.foldlM t.enter place = .ok q → parts.foldlM u.enter place = .ok q := by
  induction parts with
  | nil => exact id
  | cons part parts ih =>
      intro place hq
      rw [List.foldlM_cons, Except.bind_eq_ok_iff] at hq ⊢
      obtain ⟨next, hnext, hq⟩ := hq
      obtain ⟨hdir, hcase⟩ := enter_eq_ok_iff.mp hnext
      exact ⟨next, enter_eq_ok_iff.mpr ⟨h.directory _ hdir, hcase⟩, ih hq⟩

/-- A path leads where it led while the directories stay. -/
theorem KeepsDirectories.locate (h : t.KeepsDirectories u) (hp : t.locate p = .ok place) :
    u.locate p = .ok place := by
  unfold FileTree.locate at hp ⊢
  rw [Except.bind_eq_ok_iff] at hp ⊢
  obtain ⟨_, hcheck, hfold⟩ := hp
  refine ⟨_, hcheck, ?_⟩
  have horigin : u.origin p = t.origin p := by simp only [origin, h.here]
  rw [horigin]
  exact h.foldlM_enter hfold

/-- A path finds what stands at the place it leads to. -/
theorem lookup_eq_ok_iff : t.lookup p = .ok node ↔
    ∃ place, t.locate p = .ok place ∧ t.node? place = some node := by
  unfold lookup
  rw [Except.bind_eq_ok_iff]
  refine exists_congr fun place => and_congr_right fun _ => ?_
  cases t.node? place <;> simp [pure, Except.pure, throw, throwThe, MonadExceptOf.throw]

theorem Extends.lookup (h : t.Extends u) (hp : t.lookup p = .ok node) : u.lookup p = .ok node := by
  obtain ⟨place, hplace, hnode⟩ := lookup_eq_ok_iff.mp hp
  exact lookup_eq_ok_iff.mpr ⟨place, h.keepsDirectories.locate hplace, h.node _ _ hnode⟩

/-! ### Making directories and writing -/

/-- One tree is another with directories where there was nothing. -/
structure MakesOnly (t u : FileTree) : Prop where
  here : u.here = t.here
  node : ∀ q, u.node? q = t.node? q ∨ t.node? q = none ∧ u.node? q = some .directory

theorem MakesOnly.refl (t : FileTree) : t.MakesOnly t := ⟨rfl, fun _ => .inl rfl⟩

theorem MakesOnly.trans {v : FileTree} (h : t.MakesOnly u) (h' : u.MakesOnly v) :
    t.MakesOnly v := by
  refine ⟨h'.here.trans h.here, fun q => ?_⟩
  rcases h.node q with hq | ⟨hnone, hq⟩ <;> rcases h'.node q with hq' | ⟨hnone', hq'⟩
  · exact .inl (hq'.trans hq)
  · exact .inr ⟨hq ▸ hnone', hq'⟩
  · exact .inr ⟨hnone, hq'.trans hq⟩
  · exact .inr ⟨hnone, hq'⟩

theorem MakesOnly.extends (h : t.MakesOnly u) : t.Extends u := by
  refine ⟨h.here, fun q n hn => ?_⟩
  rcases h.node q with hq | ⟨hnone, -⟩
  · rw [hq, hn]
  · rw [hnone] at hn
    cases hn

/-- What is no directory has not been made. -/
theorem MakesOnly.node?_of_ne_directory (h : t.MakesOnly u) {n : Node} (hn : u.node? q = some n)
    (hne : n ≠ .directory) : t.node? q = some n := by
  rcases h.node q with hsame | ⟨-, hmade⟩
  · exact hsame.symm.trans hn
  · exact absurd (Option.some.inj (hn.symm.trans hmade)) hne

/-- Making one where nothing is changes nothing else. -/
theorem makesOnly_put (h : t.node? place = none) : t.MakesOnly (t.put place .directory) := by
  refine ⟨here_put .., fun q => ?_⟩
  by_cases hq : q = place
  · subst hq
    refine .inr ⟨h, node?_put_self ?_⟩
    rintro rfl
    cases h
  · exact .inl (node?_put_of_ne hq)

/-- One step makes a directory or nothing. -/
theorem makesOnly_makeStep (state : FileTree × Except FileFailure Place) (part : String) :
    state.1.MakesOnly (makeStep state part).1 := by
  obtain ⟨t, r⟩ := state
  cases r with
  | error f => exact .refl t
  | ok place =>
      simp only [makeStep]
      cases t.enter place part with
      | error f => exact .refl t
      | ok next =>
          simp only
          cases hnext : t.node? next with
          | none => exact makesOnly_put hnext
          | some n => cases n <;> exact .refl t

/-- One step goes to where there is a directory, or to where it makes one. -/
theorem makeStep_eq_ok_iff {next : Place} {part : String} :
    makeStep (t, .ok place) part = (u, .ok next) ↔ t.enter place part = .ok next ∧
      (t.node? next = some .directory ∧ u = t ∨
        t.node? next = none ∧ u = t.put next .directory) := by
  cases henter : t.enter place part with
  | error f => simp [makeStep, henter]
  | ok q =>
      simp only [makeStep, henter]
      cases hq : t.node? q with
      | none => grind
      | some n => cases n <;> grind

theorem node?_of_makeStep {next : Place} {part : String}
    (h : makeStep (t, .ok place) part = (u, .ok next)) : u.node? next = some .directory := by
  rcases (makeStep_eq_ok_iff.mp h).2 with ⟨hnode, rfl⟩ | ⟨hnone, rfl⟩
  · exact hnode
  · exact node?_put_self (by rintro rfl; cases hnone)

/-- After a step that fails there is none. -/
theorem foldl_makeStep_error (t : FileTree) (f : FileFailure) (parts : List String) :
    parts.foldl makeStep (t, .error f) = (t, .error f) := by
  induction parts with
  | nil => rfl
  | cons part parts ih => exact ih

/-- Several steps make nothing but directories. -/
theorem makesOnly_foldl_makeStep (state : FileTree × Except FileFailure Place)
    (parts : List String) : state.1.MakesOnly (parts.foldl makeStep state).1 := by
  induction parts generalizing state with
  | nil => exact .refl _
  | cons part parts ih => exact (makesOnly_makeStep state part).trans (ih _)

/-- Making directories makes nothing else, and takes nothing away. -/
theorem makesOnly_makeDirectories (t : FileTree) (p : Path) :
    t.MakesOnly (t.makeDirectories p).1 := by
  unfold makeDirectories
  cases checkPath p with
  | error f => exact .refl t
  | ok _ => exact makesOnly_foldl_makeStep (t, .ok (t.origin p)) p.parts

theorem extends_makeDirectories (t : FileTree) (p : Path) : t.Extends (t.makeDirectories p).1 :=
  (makesOnly_makeDirectories t p).extends

/-- A directory is made only where a path leads that can be followed. -/
theorem checkPath_of_makeDirectories (h : (t.makeDirectories p).2 = .ok ()) :
    checkPath p = .ok () := by
  unfold makeDirectories at h
  cases hcheck : checkPath p with
  | error f => rw [hcheck] at h; cases h
  | ok _ => rfl

/-- The steps that have been made come to the same when they are made again: where the first way has
made a directory, the second finds it. -/
theorem foldl_makeStep_again {parts : List String} {r : Except FileFailure Place}
    (h : parts.foldl makeStep (t, .ok place) = (u, r)) :
    parts.foldl makeStep (u, .ok place) = (u, r) := by
  induction parts generalizing t place with
  | nil =>
      cases h
      rfl
  | cons part parts ih =>
      rw [List.foldl_cons] at h ⊢
      have hrest := makesOnly_foldl_makeStep (makeStep (t, .ok place) part) parts
      rw [h] at hrest
      cases hstep : makeStep (t, .ok place) part with
      | mk t₁ r₁ =>
          rw [hstep] at h hrest
          cases r₁ with
          | error f =>
              -- a step that fails makes nothing, so the second way begins as the first did
              rw [foldl_makeStep_error] at h
              cases h
              obtain rfl : t = u := by
                unfold makeStep at hstep
                grind
              rw [hstep, foldl_makeStep_error]
          | ok next =>
              obtain ⟨henter, -⟩ := makeStep_eq_ok_iff.mp hstep
              have hdirectory := node?_of_makeStep hstep
              have hkeeps := (makesOnly_makeStep (t, .ok place) part).extends.keepsDirectories
              rw [hstep] at hkeeps
              obtain ⟨hplace, hcase⟩ := enter_eq_ok_iff.mp henter
              have hkept := hrest.extends.keepsDirectories
              have hagain : makeStep (u, .ok place) part = (u, .ok next) :=
                makeStep_eq_ok_iff.mpr ⟨enter_eq_ok_iff.mpr
                  ⟨hkept.directory _ (hkeeps.directory _ hplace), hcase⟩,
                  .inl ⟨hkept.directory _ hdirectory, rfl⟩⟩
              rw [hagain]
              exact ih h

/-- Directories that have been made are not made again, and a way that could not be made still
cannot. -/
theorem makeDirectories_again (t : FileTree) (p : Path) :
    (t.makeDirectories p).1.makeDirectories p = t.makeDirectories p := by
  have horigin : (t.makeDirectories p).1.origin p = t.origin p := by
    rw [origin, origin, (makesOnly_makeDirectories t p).here]
  unfold makeDirectories at horigin ⊢
  cases hcheck : checkPath p with
  | error f => rfl
  | ok _ =>
      simp only [hcheck] at horigin ⊢
      rw [horigin, foldl_makeStep_again rfl]

theorem makesOnly_makeSome (t : FileTree) (p : Path) (n : ℕ) : t.MakesOnly (t.makeSome p n) := by
  unfold makeSome
  cases checkPath p with
  | error f => exact .refl t
  | ok _ => exact makesOnly_foldl_makeStep (t, .ok (t.origin p)) (p.parts.take n)

/-- After a part of a way has been made, making all of it comes to the same. -/
theorem makeDirectories_makeSome (t : FileTree) (p : Path) (n : ℕ) :
    (t.makeSome p n).makeDirectories p = t.makeDirectories p := by
  have horigin : (t.makeSome p n).origin p = t.origin p := by
    rw [origin, origin, (makesOnly_makeSome t p n).here]
  unfold makeSome at horigin ⊢
  unfold makeDirectories
  cases hcheck : checkPath p with
  | error f => rfl
  | ok _ =>
      simp only [hcheck] at horigin ⊢
      have hway (u : FileTree) : p.parts.foldl makeStep (u, .ok (t.origin p)) =
          (p.parts.drop n).foldl makeStep
            ((p.parts.take n).foldl makeStep (u, .ok (t.origin p))) := by
        rw [← List.foldl_append, List.take_append_drop]
      rw [horigin, hway, hway t, foldl_makeStep_again rfl]

/-- Nothing has to be made on the way to a directory that is there. -/
theorem makeDirectories_of_lookup (h : t.lookup p = .ok .directory) :
    t.makeDirectories p = (t, .ok ()) := by
  have hfold (parts : List String) (last : Place) (hlast : t.node? last = some .directory) :
      ∀ place, parts.foldlM t.enter place = .ok last →
        parts.foldl makeStep (t, .ok place) = (t, .ok last) := by
    induction parts with
    | nil =>
        intro place hplace
        cases hplace
        rfl
    | cons part parts ih =>
        intro place hplace
        rw [List.foldlM_cons, Except.bind_eq_ok_iff] at hplace
        obtain ⟨next, henter, hrest⟩ := hplace
        have hnext : t.node? next = some .directory := by
          cases parts with
          | nil =>
              cases hrest
              exact hlast
          | cons part' parts =>
              rw [List.foldlM_cons, Except.bind_eq_ok_iff] at hrest
              obtain ⟨_, henter', -⟩ := hrest
              exact (enter_eq_ok_iff.mp henter').1
        rw [List.foldl_cons, makeStep_eq_ok_iff.mpr ⟨henter, .inl ⟨hnext, rfl⟩⟩]
        exact ih next hrest
  obtain ⟨place, hplace, hnode⟩ := lookup_eq_ok_iff.mp h
  rw [locate, Except.bind_eq_ok_iff] at hplace
  obtain ⟨_, hcheck, hplace⟩ := hplace
  unfold makeDirectories
  simp only [hcheck, hfold p.parts place hnode _ hplace]
  rfl

/-- Writing puts a node where the path leads, which is no directory. -/
theorem exists_place_of_write (h : t.write p node = .ok u) :
    ∃ place, t.locate p = .ok place ∧ t.node? place ≠ some .directory ∧ u = t.put place node := by
  unfold write at h
  rw [Except.bind_eq_ok_iff] at h
  obtain ⟨place, hplace, h⟩ := h
  refine ⟨place, hplace, ?_⟩
  cases hnode : t.node? place with
  | none => rw [hnode] at h; cases h; exact ⟨nofun, rfl⟩
  | some n =>
      rw [hnode] at h
      cases n with
      | directory => cases h
      | file | archive => cases h; exact ⟨nofun, rfl⟩

/-- A file can be written wherever a path leads, if no directory is there. -/
theorem write_of_locate (hplace : t.locate p = .ok place) (h : t.node? place ≠ some .directory) :
    t.write p node = .ok (t.put place node) := by
  rw [write, hplace, Except.ok_bind]
  split
  · contradiction
  · rfl

/-- What has been written is there. -/
theorem lookup_of_write (h : t.write p node = .ok u) : u.lookup p = .ok node := by
  obtain ⟨place, hplace, hnode, rfl⟩ := exists_place_of_write h
  refine lookup_eq_ok_iff.mpr ⟨place, (keepsDirectories_put hnode).locate hplace, node?_put_self ?_⟩
  rintro rfl
  exact hnode rfl

/-- Text comes back from its bytes, its line ends unified. -/
theorem decode_toUTF8 (s : String) :
    decode s.toUTF8 = .ok (String.ofList (Text.unifyNewlines s.toList)) := by
  have h : String.fromUTF8? s.toUTF8 = some s := dif_pos s.isValidUTF8
  rw [decode, h]

/-- A text is read back with its line ends made alike. -/
theorem readText_of_lookup {s : String} (h : t.lookup p = .ok (.file s.toUTF8)) :
    t.readText p = .ok (String.ofList (Text.unifyNewlines s.toList)) := by
  rw [readText, h]
  exact decode_toUTF8 s

/-! ### Names in a directory -/

/-- The way to a name in a directory is the way to the directory and one step more. -/
theorem locate_child (t : FileTree) (p : Path) (name : String) :
    t.locate (p.child name) = checkPath (p.child name) >>= fun _ =>
      p.parts.foldlM t.enter (t.origin p) >>= fun dir => t.enter dir name := by
  unfold locate
  congr 1
  funext _
  rw [Path.child, List.foldlM_append]
  simp [origin]

/-- A name in a directory is the last part of its place. -/
theorem getLast?_of_locate_child {name : String} (hname : name ≠ "..")
    (h : t.locate (p.child name) = .ok place) : place.getLast? = some name := by
  rw [locate_child, Except.bind_eq_ok_iff] at h
  obtain ⟨_, -, h⟩ := h
  obtain ⟨dir, -, h⟩ := Except.bind_eq_ok_iff.mp h
  obtain ⟨-, ⟨hup, -⟩ | ⟨-, -, rfl⟩⟩ := enter_eq_ok_iff.mp h
  · exact absurd hup hname
  · simp

/-- A file stays what it is when one of another name in its directory is written. -/
theorem lookup_child_of_write {a b : String} {n : Node} (ha : a ≠ "..") (hb : b ≠ "..")
    (hab : a ≠ b) (hlookup : t.lookup (p.child a) = .ok n)
    (hwrite : t.write (p.child b) node = .ok u) : u.lookup (p.child a) = .ok n := by
  obtain ⟨place, hplace, hn⟩ := lookup_eq_ok_iff.mp hlookup
  obtain ⟨q, hq, hdir, rfl⟩ := exists_place_of_write hwrite
  refine lookup_eq_ok_iff.mpr ⟨place, (keepsDirectories_put hdir).locate hplace, ?_⟩
  rw [node?_put_of_ne, hn]
  rintro rfl
  have := (getLast?_of_locate_child ha hplace).symm.trans (getLast?_of_locate_child hb hq)
  exact hab (Option.some.inj this)

/-- Whether something is there stays open only when the path is too long or meets a name that is. -/
theorem isThere_eq_error_iff {f : FileFailure} :
    t.isThere p = .error f ↔ t.locate p = .error .nameTooLong ∧ f = .nameTooLong := by
  unfold isThere lookup
  cases t.locate p with
  | ok place =>
      cases hnode : t.node? place <;>
        simp [hnode, pure, Except.pure, throw, throwThe, MonadExceptOf.throw]
  | error g => cases g <;> simp [eq_comm]

/-- It can be told whether something is there unless the way to it is too long. -/
theorem exists_isThere_iff :
    (∃ there, t.isThere p = .ok there) ↔ t.locate p ≠ .error .nameTooLong := by
  cases hthere : t.isThere p with
  | ok there =>
      refine ⟨fun _ hlong => ?_, fun _ => ⟨there, rfl⟩⟩
      cases hthere.symm.trans (isThere_eq_error_iff.mpr ⟨hlong, rfl⟩)
  | error f => simp [(isThere_eq_error_iff.mp hthere).1]

/-- A name is found to be too long only from a directory. -/
theorem enter_eq_nameTooLong_iff {part : String} :
    t.enter place part = .error .nameTooLong ↔
      t.node? place = some .directory ∧ part ≠ ".." ∧ nameLimit < part.utf8ByteSize := by
  unfold enter
  cases t.node? place with
  | none => simp
  | some n =>
      cases n with
      | directory =>
          by_cases hup : part = ".."
          · simp [hup]
          · by_cases hsize : nameLimit < part.utf8ByteSize <;> simp [hup, hsize]
      | file | archive => simp

/-- A name cannot be asked for when its path or itself is too long, or the way to its directory. -/
theorem locate_child_eq_nameTooLong_iff {name : String} :
    t.locate (p.child name) = .error .nameTooLong ↔
      '\x00' ∉ (p.child name).text.toList ∧
        (pathLimit < (p.child name).text.utf8ByteSize ∨
          p.parts.foldlM t.enter (t.origin p) = .error .nameTooLong ∨
          ∃ dir, p.parts.foldlM t.enter (t.origin p) = .ok dir ∧
            t.enter dir name = .error .nameTooLong) := by
  rw [locate_child, checkPath]
  by_cases hnull : '\x00' ∈ (p.child name).text.toList
  · simp [hnull]
  · by_cases hsize : pathLimit < (p.child name).text.utf8ByteSize
    · simp [hnull, hsize]
    · cases p.parts.foldlM t.enter (t.origin p) <;> simp [hnull, hsize]

/-- Where a longer name can be asked for, so can a shorter one. -/
theorem isThere_child_of_le {a b : String} {there : Bool} (ha : a.utf8ByteSize ≤ nameLimit)
    (hab : a.utf8ByteSize ≤ b.utf8ByteSize) (hb : '\x00' ∉ b.toList)
    (h : t.isThere (p.child b) = .ok there) : ∃ there, t.isThere (p.child a) = .ok there := by
  cases hthere : t.isThere (p.child a) with
  | ok there => exact ⟨there, rfl⟩
  | error f =>
      obtain ⟨front, hfront⟩ := p.exists_text_child
      obtain ⟨hnull, hlong⟩ := locate_child_eq_nameTooLong_iff.mp (isThere_eq_error_iff.mp hthere).1
      have : t.locate (p.child b) = .error .nameTooLong := by
        rw [locate_child_eq_nameTooLong_iff]
        rw [hfront] at hnull hlong ⊢
        refine ⟨by simp at hnull; simp [hnull.1, hb], ?_⟩
        rcases hlong with hpath | hway | ⟨dir, -, hname⟩
        · rw [String.utf8ByteSize_append] at hpath ⊢
          exact .inl (by omega)
        · exact .inr (.inl hway)
        · exact absurd ha (Nat.not_le.mpr (enter_eq_nameTooLong_iff.mp hname).2.2)
      rw [isThere_eq_error_iff.mpr ⟨this, rfl⟩] at h
      cases h

end FileTree

end Abacus

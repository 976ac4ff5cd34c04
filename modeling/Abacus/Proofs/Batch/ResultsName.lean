import Mathlib.Data.List.Forall2
import Abacus.Batch
import Abacus.Proofs.Files.Path

/-!
# Abacus — Batch — Names of results

The results of an input lie in its directory, under its name with underscores for the dots behind
the front of the name (`outputPath_of_isReadable`).  So the results are never put over the input
itself; those of two inputs meet exactly when their names differ in nothing but dots and
underscores (`outputPath_of_two`).
-/

namespace Abacus.Batch
variable {p q : Path} {name : List Char}

/-- The ending of a path announces a text file or an archive. -/
def IsReadable (p : Path) : Prop :=
  p.lastEnding = ".txt" ∨ (kindOf? p).isSome = true

instance (p : Path) : Decidable (IsReadable p) :=
  inferInstanceAs (Decidable (_ ∨ _))

theorem lastEnding_ne_of_isReadable (h : IsReadable p) : p.lastEnding ≠ "" := by
  rcases h with htext | harchive
  · rw [htext]
    decide
  · unfold kindOf? at harchive
    split_ifs at harchive with hzip htar hseven
    · rw [eq_of_beq hzip]
      decide
    · have hlast : p.endings.getLast? = some ".xz" := by
        rw [← List.take_append_drop (p.endings.length - 2) p.endings, eq_of_beq htar]
        simp
      rw [Path.lastEnding_eq_of_endings hlast]
      decide
    · rw [eq_of_beq hseven]
      decide
    · cases harchive

/-! ### Underscores for dots -/

/-- A character of a name of results. -/
def undotted (c : Char) : Char :=
  if c == '.' then '_' else c

/-- A name with its dots made underscores, except those at its front. -/
def underscored (name : List Char) : List Char :=
  name.takeWhile (· == '.') ++ (name.dropWhile (· == '.')).map undotted

theorem undotted_ne (c : Char) : undotted c ≠ '.' := by
  unfold undotted
  split
  · decide
  · rwa [beq_iff_eq] at ‹_›

theorem map_undotted_of_not_mem {cs : List Char} (h : '.' ∉ cs) : cs.map undotted = cs := by
  conv_rhs => rw [← List.map_id cs]
  refine List.map_congr_left fun c hc => if_neg ?_
  rw [beq_iff_eq]
  rintro rfl
  exact h hc

/-- Underscores are as many as the dots they stand for. -/
theorem length_underscored (name : List Char) : (underscored name).length = name.length := by
  conv_rhs => rw [← List.takeWhile_append_dropWhile (p := (· == '.')) (l := name)]
  rw [underscored, List.length_append, List.length_append, List.length_map]

/-- The same characters, or a dot in one place and an underscore in the other. -/
def SameButDot (c d : Char) : Prop :=
  c = d ∨ c = '.' ∧ d = '_' ∨ c = '_' ∧ d = '.'

/-- Underscores hide only whether there was a dot. -/
theorem undotted_eq_iff {c d : Char} : undotted c = undotted d ↔ SameButDot c d := by
  unfold undotted SameButDot
  simp only [beq_iff_eq]
  split_ifs with hc hd hd
  · simp [hc, hd]
  · subst hc
    simp [Ne.symm hd, eq_comm]
  · subst hd
    simp [hc]
  · simp [hc, hd]

/-- Names that have the same dots at their front and differ behind these in nothing but dots in the
place of underscores. -/
def SameButDots (a b : List Char) : Prop :=
  a.takeWhile (· == '.') = b.takeWhile (· == '.') ∧ List.Forall₂ SameButDot a b

/-- Dots at the front are no ending, and stay. -/
theorem takeWhile_underscored (name : List Char) :
    (underscored name).takeWhile (· == '.') = name.takeWhile (· == '.') := by
  have hfront : ∀ c ∈ name.takeWhile (· == '.'), (c == '.') = true :=
    List.all_eq_true.mp List.all_takeWhile
  rw [underscored, List.takeWhile_append_of_pos hfront]
  cases name.dropWhile (· == '.') with
  | nil => simp
  | cons c cs => simp [undotted_ne c]

/-- Two names come to the same when they differ only in such dots. -/
theorem underscored_eq_iff {a b : List Char} : underscored a = underscored b ↔ SameButDots a b := by
  have hsplit (cs : List Char) := List.takeWhile_append_dropWhile (p := (· == '.')) (l := cs)
  have hback : a.takeWhile (· == '.') = b.takeWhile (· == '.') →
      (underscored a = underscored b ↔ List.Forall₂ SameButDot a b) := by
    intro hfront
    rw [underscored, underscored, hfront, List.append_cancel_left_eq, ← List.forall₂_eq_eq_eq,
      List.forall₂_map_left_iff, List.forall₂_map_right_iff]
    simp only [undotted_eq_iff]
    constructor
    · intro h
      rw [← hsplit a, ← hsplit b, hfront]
      exact List.rel_append (List.forall₂_same.mpr fun c _ => .inl rfl) h
    · intro h
      rw [← hsplit a, ← hsplit b, hfront] at h
      have hdrop := List.forall₂_drop (b.takeWhile (· == '.')).length h
      rwa [List.drop_left, List.drop_left] at hdrop
  constructor
  · intro h
    have hfront : a.takeWhile (· == '.') = b.takeWhile (· == '.') := by
      rw [← takeWhile_underscored, h, takeWhile_underscored]
    exact ⟨hfront, (hback hfront).mp h⟩
  · rintro ⟨hfront, h⟩
    exact (hback hfront).mpr h

/-! ### Where results are put -/

/-- The endings of a name stand behind a stem that has dots at its front only. -/
theorem exists_stem_of_endingsOf (h : name.getLast? ≠ some '.') :
    ∃ stem, '.' ∉ stem ∧ name.dropWhile (· == '.') = stem ++ (Path.endingsOf name).flatten := by
  obtain ⟨stem, pieces, hpieces⟩ := List.exists_cons_of_ne_nil
    (Text.splitAt_ne_nil '.' (name.dropWhile (· == '.')))
  obtain ⟨hname, hstem⟩ := Text.eq_append_of_splitAt hpieces
  refine ⟨stem, hstem, ?_⟩
  rw [Path.endingsOf, if_neg (by simpa using h), hpieces, List.drop_one, List.tail_cons,
    ← List.flatMap_def, ← hname]

/-- The results of an input are put beside it, under its name with underscores for dots. -/
theorem outputPath_of_isReadable (h : IsReadable p) :
    outputPath p =
      .ok (p.sibling (String.ofList (underscored p.name.toList) ++ "_results.txt")) := by
  obtain ⟨c, hlast, hc⟩ := Path.exists_getLast?_of_lastEnding (lastEnding_ne_of_isReadable h)
  have hname : p.name ≠ "" := by
    intro hempty
    rw [hempty] at hlast
    cases hlast
  have hnodot : p.name.toList.getLast? ≠ some '.' := by
    rw [hlast]
    simpa using hc
  obtain ⟨stem, hstem, hsplit⟩ := exists_stem_of_endingsOf hnodot
  have hdotted : p.endings.flatMap String.toList = (Path.endingsOf p.name.toList).flatten := by
    rw [Path.endings, List.flatMap_map]
    simp [List.flatMap_id']
  generalize (Path.endingsOf p.name.toList).flatten = dotted at hsplit hdotted
  have hstemmed : p.name.toList.take (p.name.length - dotted.length) =
      p.name.toList.takeWhile (· == '.') ++ stem := by
    have hall : p.name.toList = (p.name.toList.takeWhile (· == '.') ++ stem) ++ dotted := by
      rw [List.append_assoc, ← hsplit, List.takeWhile_append_dropWhile]
    generalize p.name.toList.takeWhile (· == '.') ++ stem = front at hall
    rw [← String.length_toList, hall, List.length_append, Nat.add_sub_cancel, List.take_left]
  rw [outputPath, if_neg (by simpa using hname)]
  simp only [hdotted, hstemmed]
  rw [underscored, hsplit, List.map_append, map_undotted_of_not_mem hstem, List.append_assoc]
  rfl

/-- Files beside two paths are one file when the paths share a directory. -/
theorem sibling_eq_iff {a b : String} :
    p.sibling a = q.sibling b ↔ p.parent = q.parent ∧ a = b := by
  simp only [Path.sibling, Path.parent, Path.mk.injEq]
  constructor
  · rintro ⟨hslashes, hparts⟩
    obtain ⟨hfront, hlast⟩ := List.append_inj' hparts rfl
    exact ⟨⟨hslashes, hfront⟩, List.singleton_inj.mp hlast⟩
  · rintro ⟨⟨hslashes, hfront⟩, rfl⟩
    exact ⟨hslashes, by rw [hfront]⟩

end Abacus.Batch

namespace Abacus

/-- **The results of two inputs.**  For text files and archives there is always a path for the
results, in the input's own directory and other than the input's.  The results of two inputs go to
one path exactly when the inputs lie in one directory and their names, with the same dots at the
front, differ in nothing but dots in the place of underscores. -/
theorem outputPath_of_two {p q : Path} (hp : Batch.IsReadable p) (hq : Batch.IsReadable q) :
    ∃ a b, Batch.outputPath p = .ok a ∧ Batch.outputPath q = .ok b ∧
      a.parent = p.parent ∧ a ≠ p ∧ b.parent = q.parent ∧ b ≠ q ∧
      (a = b ↔ p.parent = q.parent ∧ Batch.SameButDots p.name.toList q.name.toList) := by
  have hown (r : Path) (cs : List Char) (hcs : cs.length = r.name.length) :
      (r.sibling (String.ofList cs ++ "_results.txt")).parent = r.parent ∧
        r.sibling (String.ofList cs ++ "_results.txt") ≠ r := by
    refine ⟨by simp [Path.sibling, Path.parent], fun h => ?_⟩
    have hname := congrArg (fun r => (Path.name r).length) h
    simp [Path.sibling, Path.name, String.length_append] at hname hcs
    have : "_results.txt".length = 12 := by decide
    omega
  obtain ⟨hparent_p, hne_p⟩ := hown p _ (Batch.length_underscored p.name.toList)
  obtain ⟨hparent_q, hne_q⟩ := hown q _ (Batch.length_underscored q.name.toList)
  refine ⟨_, _, Batch.outputPath_of_isReadable hp, Batch.outputPath_of_isReadable hq, hparent_p,
    hne_p, hparent_q, hne_q, ?_⟩
  rw [Batch.sibling_eq_iff, String.append_left_inj, String.ofList_inj, Batch.underscored_eq_iff]

/-- A text file and an archive of one stem, whose results have names of their own. -/
theorem outputPath_of_two_of_one_stem :
    Batch.IsReadable (.ofString "d/ops.txt") ∧ Batch.IsReadable (.ofString "d/ops.tar.xz") ∧
      ∃ a b, Batch.outputPath (.ofString "d/ops.txt") = .ok a ∧
        Batch.outputPath (.ofString "d/ops.tar.xz") = .ok b ∧
        a.parent = (Path.ofString "d/ops.txt").parent ∧ a ≠ b := by
  have htxt : Batch.IsReadable (.ofString "d/ops.txt") := by decide
  have htar : Batch.IsReadable (.ofString "d/ops.tar.xz") := by decide
  obtain ⟨a, b, ha, hb, hparent, -, -, -, hiff⟩ := outputPath_of_two htxt htar
  refine ⟨htxt, htar, a, b, ha, hb, hparent, fun hab => ?_⟩
  have hlength := (hiff.mp hab).2.2.length_eq
  revert hlength
  decide

/-- `a.b.txt` and `a_b.txt` are two inputs with one path for their results. -/
theorem outputPath_of_dot_and_underscore :
    Batch.IsReadable (.ofString "a.b.txt") ∧ Batch.IsReadable (.ofString "a_b.txt") ∧
      Path.ofString "a.b.txt" ≠ .ofString "a_b.txt" ∧
      Batch.outputPath (.ofString "a.b.txt") = .ok (.ofString "a_b_txt_results.txt") ∧
      Batch.outputPath (.ofString "a_b.txt") = .ok (.ofString "a_b_txt_results.txt") := by
  decide

end Abacus

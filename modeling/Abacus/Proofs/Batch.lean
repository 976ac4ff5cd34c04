import Abacus.Batch
import Abacus.Proofs.Except
import Abacus.Proofs.Files.Unpack
import Abacus.Proofs.Session.Calls
import Abacus.Proofs.Text.Trimmed

/-!
# Abacus — Batch — What a run over a file gives

The run as its outcome and the desk after it (`runAt_run`), and the name under which its results
are placed (`exists_name_of_outputPath`).
-/

namespace Abacus.Batch
variable {t : FileTree} {p output : Path} {s : Session} {d : Desk}

/-! ### Names and lines -/

/-- Results stand beside the input, under a name that marks them. -/
theorem exists_name_of_outputPath (h : outputPath p = .ok output) :
    ∃ stem, output = p.parent.child (stem ++ "_results.txt") := by
  unfold outputPath at h
  split_ifs at h
  cases h
  exact ⟨_, rfl⟩

theorem ne_of_isText {name : String} (h : isText name = true) : name ≠ "" ∧ name ≠ ".." := by
  constructor <;>
  · rintro rfl
    exact absurd h (by decide)

/-- The last part of a text's name is the name of a text as well. -/
theorem isText_name_ofString {name : String} (h : isText name = true) :
    isText (Path.ofString name).name = true :=
  List.isSuffixOf_iff_suffix.mpr (Path.suffix_name_of_suffix (List.isSuffixOf_iff_suffix.mp h)
    (by decide) (by decide) (by decide))

theorem parts_ne_nil_of_isText {name : String} (h : isText name = true) :
    (Path.ofString name).parts ≠ [] :=
  Path.parts_ne_nil_of_name (ne_of_isText (isText_name_ofString h)).1

/-- A path with the name of a text leads to a place of that name, if it leads anywhere. -/
theorem isText_name_within {name : String} (h : isText name = true) (dir : Place) :
    isText ((Path.ofString name).within dir).name = true := by
  rw [Path.name_within (parts_ne_nil_of_isText h)]
  exact isText_name_ofString h

/-- The expressions in a text are its lines without the blanks around them. -/
theorem expressionsOf_eq (text : String) :
    expressionsOf text = (Text.trimmedLines text.toList).map String.ofList := rfl

/-! ### Evaluating -/

/-- The first expression is evaluated, and the others in the session that it leaves. -/
theorem runAt_evaluateAll_cons {x : String} {o : Outcome} {text : String} {s₁ : Session} {d₁ : Desk}
    (h : (s.evaluate x).runAt d = (.ok (o, text, s₁), d₁)) (xs : List String) :
    (evaluateAll s (x :: xs)).runAt d =
      match (evaluateAll s₁ xs).runAt d₁ with
      | (.ok (lines, s₂), d₂) => (.ok (lineOf o x text :: lines, s₂), d₂)
      | (.error stop, d₂)     => (.error stop, d₂) := by
  rw [evaluateAll, Attempt.runAt_bind_of_ok h]
  dsimp only
  rw [Attempt.runAt_bind]
  cases (evaluateAll s₁ xs).runAt d₁ with
  | mk result d₂ => cases result <;> rfl

/-- Evaluating takes no noted error back. -/
theorem errors_le_evaluateAll (xs : List String) :
    d.errors ≤ ((evaluateAll s xs).runAt d).2.errors := by
  induction xs generalizing s d with
  | nil => exact le_rfl
  | cons x xs ih =>
      obtain ⟨o, text, s₁, d₁, hrun, hle⟩ := s.exists_evaluate x d
      rw [runAt_evaluateAll_cons hrun]
      have := ih (s := s₁) (d := d₁)
      cases hrest : (evaluateAll s₁ xs).runAt d₁ with
      | mk result d₂ =>
          rw [hrest] at this
          cases result <;> exact hle.trans this

/-! ### Runs -/

/-- What is placed is put in the files at once, or not at all. -/
theorem runAt_place (output : Path) (text : String) (d : Desk) :
    (place output text).runAt d =
      match d.files.writeText output text with
      | .ok t    => (.ok (), { d with files := t })
      | .error f => (.error (.batch (.file f)), d) := by
  rw [place, Attempt.runAt_bind_of_ok (Attempt.runAt_get d)]
  cases hwrite : d.files.writeText output text with
  | ok t => exact Attempt.runAt_bind_of_ok (by rw [Attempt.runAt_of]; rfl)
  | error f => exact Attempt.runAt_bind_of_error (by rw [Attempt.runAt_of]; rfl)

/-- The text that a run places, of the lines of its results. -/
def resultsText (lines : List String) : String :=
  String.join (lines.map (· ++ "\n"))

theorem toList_resultsText (lines : List String) :
    (resultsText lines).toList = (lines.map String.toList).flatMap (· ++ ['\n']) := by
  simp [resultsText, String.toList_join, List.flatMap_map]

section Runs
variable [SevenZip]

/-- Without a name for the results nothing is read. -/
theorem runAt_run_of_outputPath {f : Failure} (h : outputPath p = .error f) :
    (run s p).runAt d = (.error (.batch f), d) := by
  rw [run]
  exact Attempt.runAt_bind_of_error (by rw [Attempt.runAt_of, h]; rfl)

/-- Without expressions no results are begun. -/
theorem runAt_run_of_expressions {f : Failure} (houtput : outputPath p = .ok output)
    (h : expressions d.files p = .error f) : (run s p).runAt d = (.error (.batch f), d) := by
  rw [run, Attempt.runAt_bind_of_ok (by rw [Attempt.runAt_of, houtput]; rfl),
    Attempt.runAt_bind_of_ok (Attempt.runAt_get d)]
  exact Attempt.runAt_bind_of_error (by rw [Attempt.runAt_of, h]; rfl)

/-- With both, the results are begun with an empty file, and written when all is evaluated. -/
theorem runAt_run {sources : List String} (houtput : outputPath p = .ok output)
    (hsources : expressions d.files p = .ok sources) :
    (run s p).runAt d =
      match d.files.writeText output "" with
      | .error f => (.error (.batch (.file f)), d.noted [.info])
      | .ok t    =>
          match (evaluateAll s sources).runAt { d.noted [.info] with files := t } with
          | (.error stop, after)      => (.error (.stop stop), after)
          | (.ok (lines, next), after) =>
              match after.files.writeText output (resultsText lines) with
              | .error f => (.error (.batch (.file f)), after)
              | .ok t    => (.ok (output, next), { after with files := t }.noted [.info]) := by
  rw [run, Attempt.runAt_bind_of_ok (by rw [Attempt.runAt_of, houtput]; rfl),
    Attempt.runAt_bind_of_ok (Attempt.runAt_get d),
    Attempt.runAt_bind_of_ok (by rw [Attempt.runAt_of, hsources]; rfl),
    Attempt.runAt_bind_of_ok (Attempt.runAt_lift _ d), Desk.runAt_note, Attempt.runAt_bind,
    runAt_place, Desk.files_noted]
  cases d.files.writeText output "" with
  | error f => rfl
  | ok t =>
      simp only [Attempt.runAt_bind, Attempt.runAt_adapt]
      cases (evaluateAll s sources).runAt { d.noted [.info] with files := t } with
      | mk result after =>
          cases result with
          | error stop => rfl
          | ok r =>
              obtain ⟨lines, next⟩ := r
              simp only [Except.mapError_ok, runAt_place, resultsText]
              cases after.files.writeText output (String.join (lines.map (· ++ "\n"))) <;> rfl

/-- Once its results can be placed, a run notes no error but those of its evaluations. -/
theorem errors_run {sources : List String} (houtput : outputPath p = .ok output)
    (hsources : expressions d.files p = .ok sources)
    (hplaced : d.files.writeText output "" = .ok t) :
    ((run s p).runAt d).2.errors =
      ((evaluateAll s sources).runAt { d.noted [.info] with files := t }).2.errors := by
  rw [runAt_run houtput hsources, hplaced]
  dsimp only
  split
  · rename_i hall
    rw [hall]
  · rename_i hall
    rw [hall]
    split
    · rfl
    · exact Desk.errors_noted_info _

end Runs

end Abacus.Batch

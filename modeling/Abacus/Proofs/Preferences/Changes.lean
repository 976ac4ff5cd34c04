import Abacus.KeptPreferences
import Abacus.Proofs.Display
import Abacus.Proofs.Preferences
import Abacus.Proofs.Session.Calls

/-!
# Abacus — Preferences — What changes do to them

Kept preferences are changed call by call, and copies of them are given away and edited.  Each turn
does what its call asks for and nothing else (`Turn.Lawful`): a change that is taken over sets one
field, and once it has been saved the file says the same; one that is refused leaves everything as
it was, files included; and copies have no part in any of this.  The law holds of one turn at any
desk (`Use.lawful_turn`), so of every turn of a run (`Use.lawful_turns`).
-/

namespace Abacus

namespace KeptPreferences

/-- What can be asked of kept preferences: a change, a copy, or an edit of one of the copies. -/
inductive Request where
  | chooseTheme (v : Json)
  | switchTheme
  | choosePrecision (v : Json)
  | copy
  | edit (i : ℕ) (change : Preferences → Preferences)

/-- Kept preferences, and the copies of them that have been given away. -/
structure Use where
  kept : KeptPreferences
  copies : List Preferences := []

namespace Use

/-- Tries a change; if it is refused the preferences stay. -/
def changing (u : Use) (change : Attempt PreferencesFailure KeptPreferences) :
    Work (Except PreferencesFailure Unit × Use) := do
  match ← change.run with
  | .ok k    => return (.ok (), { u with kept := k })
  | .error f => return (.error f, u)

def perform (u : Use) : Request → Work (Except PreferencesFailure Unit × Use)
  | .chooseTheme v     => u.changing (u.kept.chooseTheme v)
  | .switchTheme       => u.changing u.kept.switchTheme
  | .choosePrecision v => u.changing (u.kept.choosePrecision v)
  | .copy              => return (.ok (), { u with copies := u.copies ++ [u.kept.preferences] })
  | .edit i change     => return (.ok (), { u with copies := u.copies.modify i change })

end Use

/-- A request that has been performed: how it was answered, and what was there before and after. -/
structure Turn where
  request : Request
  reply : Except PreferencesFailure Unit
  before : Use
  after : Use
  desk : Desk
  left : Desk

namespace Use

def turn (u : Use) (d : Desk) (r : Request) : Turn :=
  let ((reply, next), left) := (u.perform r).runAt d
  ⟨r, reply, u, next, d, left⟩

/-- Requests performed one after the other, each at a desk of its own: whatever has become of the
files in the meantime, and whichever saves are refused. -/
def turns (u : Use) : List (Desk × Request) → List Turn
  | []           => []
  | (d, r) :: rs => u.turn d r :: (u.turn d r).after.turns rs

end Use

/-! ### The law of a turn -/

namespace Turn

/-- The change is refused, and nothing is changed. -/
def Refused (t : Turn) : Prop :=
  (∃ f, t.reply = .error f) ∧ t.after = t.before ∧ t.left = t.desk

/-- The preferences become `p` and are saved, and if the save succeeds, `p` is what the file
says. -/
def Becomes (t : Turn) (p : Preferences) : Prop :=
  t.reply = .ok () ∧ t.after = { t.before with kept := { t.before.kept with preferences := p } } ∧
    t.left = t.desk.afterSave t.before.kept.store key p.toJson ∧
    ∀ store ∈ t.before.kept.store, ((store.save key p.toJson).runAt t.desk).1 = true →
      ∃ doc, store.document? key t.left.files = some doc ∧ Preferences.ofJson doc = .ok p

/-- What a turn may do, by what has been asked for. -/
def Lawful (t : Turn) : Prop :=
  let now := t.before.kept.preferences
  match t.request with
  | .chooseTheme v     =>
      (∃ theme : Theme, v = .string theme.name ∧ t.Becomes { now with theme := theme }) ∨
        (∀ theme : Theme, v ≠ .string theme.name) ∧ t.Refused
  | .switchTheme       =>
      t.Becomes { now with theme := if now.theme = .dark then .light else .dark }
  | .choosePrecision v =>
      (∃ i, v.whole = .ok i ∧ ∃ q : Precision, (q.places : ℤ) = max 0 (min 12 i) ∧
        t.Becomes { now with precision := q }) ∨
        (∀ i, v.whole ≠ .ok i) ∧ t.Refused
  | .copy | .edit ..   => t.after.kept = t.before.kept ∧ t.left = t.desk

end Turn

/-! ### Turns are lawful -/

namespace Use

/-- A change is saved if it is valid, and refused without a trace if it is not. -/
theorem runAt_changing (u : Use) (next : Except PreferencesFailure Preferences) (d : Desk) :
    (u.changing (u.kept.change next)).runAt d =
      match next with
      | .ok p    => ((.ok (), { u with kept := { u.kept with preferences := p } }),
          d.afterSave u.kept.store key p.toJson)
      | .error f => ((.error f, u), d) := by
  rw [changing, Work.runAt_bind]
  show Work.runAt (match ((u.kept.change next).runAt d).1 with
    | .ok k    => pure (Except.ok (), { u with kept := k })
    | .error f => pure (Except.error f, u)) ((u.kept.change next).runAt d).2 = _
  rw [KeptPreferences.runAt_change]
  cases next <;> rfl

end Use

namespace Turn
variable {u : Use} {d : Desk} {r : Request} {next : Except PreferencesFailure Preferences}
  {p : Preferences} {f : PreferencesFailure}

/-- A change that is possible is taken over. -/
theorem becomes_of_ok (h : u.perform r = u.changing (u.kept.change next)) (hnext : next = .ok p) :
    (u.turn d r).Becomes p := by
  subst hnext
  rw [Use.turn, h, Use.runAt_changing]
  refine ⟨rfl, rfl, rfl, fun store hstore hsaved => ?_⟩
  obtain ⟨files, done, hrun, hdone, -⟩ := store.runAt_save key p.toJson d
  rw [hrun] at hsaved
  have hheld : store.Holds key p.toJson (d.afterSave (some store) key p.toJson).files := by
    rw [Desk.afterSave, hrun]
    exact hdone hsaved
  simp only at hstore ⊢
  rw [Option.mem_def.mp hstore]
  exact ⟨_, hheld.document?_eq p.readsBack_toJson,
    Preferences.ofJson_eq_ok_iff.mpr p.writtenIn_toJson⟩

/-- A change that is not possible is refused. -/
theorem refused_of_error (h : u.perform r = u.changing (u.kept.change next))
    (hnext : next = .error f) : (u.turn d r).Refused := by
  subst hnext
  rw [Use.turn, h, Use.runAt_changing]
  exact ⟨⟨f, rfl⟩, rfl, rfl⟩

end Turn

end KeptPreferences

/-- A request for a theme is the theme's name. -/
theorem Theme.ofJson?_eq_some_iff {v : Json} {t : Theme} :
    ofJson? v = some t ↔ v = .string t.name := by
  cases v with
  | string s => rw [ofJson?, ofName?_eq_some_iff, Json.string.injEq]
  | null | bool b | int i | float x | array items | object fields | foreign => simp [ofJson?]

namespace KeptPreferences.Use

/-- What every turn does. -/
theorem lawful_turn (u : Use) (d : Desk) (r : Request) : (u.turn d r).Lawful := by
  cases r with
  | chooseTheme v =>
      cases hv : Theme.ofJson? v with
      | some theme =>
          exact .inl ⟨theme, Theme.ofJson?_eq_some_iff.mp hv,
            Turn.becomes_of_ok rfl (by simp only [Preferences.chooseTheme, hv]; rfl)⟩
      | none =>
          refine .inr ⟨fun theme htheme => ?_, Turn.refused_of_error (f := .notATheme v) rfl
            (by simp only [Preferences.chooseTheme, hv])⟩
          rw [Theme.ofJson?_eq_some_iff.mpr htheme] at hv
          cases hv
  | switchTheme =>
      have hother : u.kept.preferences.theme.other =
          if u.kept.preferences.theme = .dark then .light else .dark := by
        cases u.kept.preferences.theme <;> rfl
      have hperform : u.perform .switchTheme =
          u.changing (u.kept.change (.ok u.kept.preferences.switchTheme)) := rfl
      have hbecomes : (u.turn d .switchTheme).Becomes u.kept.preferences.switchTheme :=
        Turn.becomes_of_ok hperform rfl
      rw [Preferences.switchTheme, hother] at hbecomes
      exact hbecomes
  | choosePrecision v =>
      cases hv : Precision.ofJson v with
      | ok q =>
          obtain ⟨i, hi, rfl⟩ := Preferences.precision_eq_ok_iff.mp hv
          exact .inl ⟨i, hi, _, Precision.places_clamp i, Turn.becomes_of_ok rfl (by
            simp only [Preferences.choosePrecision, hv]; rfl)⟩
      | error e =>
          have hwhole : ∀ i, v.whole ≠ .ok i := fun i hi => by
            rw [Preferences.precision_eq_ok_iff.mpr ⟨i, hi, rfl⟩] at hv
            cases hv
          refine .inr ⟨hwhole, ?_⟩
          cases e with
          | notWhole =>
              exact Turn.refused_of_error rfl (by simp only [Preferences.choosePrecision, hv]; rfl)
          | infinite =>
              exact Turn.refused_of_error rfl (by simp only [Preferences.choosePrecision, hv]; rfl)
  | copy => exact ⟨rfl, rfl⟩
  | edit i change => exact ⟨rfl, rfl⟩

/-- What every turn of a run does. -/
theorem lawful_turns (u : Use) (requests : List (Desk × Request)) :
    ∀ t ∈ u.turns requests, t.Lawful := by
  induction requests generalizing u with
  | nil => exact fun t ht => absurd ht List.not_mem_nil
  | cons request requests ih =>
      obtain ⟨d, r⟩ := request
      rw [turns, List.forall_mem_cons]
      exact ⟨u.lawful_turn d r, ih _⟩

end KeptPreferences.Use

/-- **Preferences stay in range, and a change does all or nothing.**  Whatever is asked of kept
preferences, and whatever is done to copies of them: the theme is one of the two and the precision
from none to twelve; a theme that is none and a precision that stands for no whole number are
refused, with the preferences and the files as they were; and any other change sets its own field
and no other, to the theme that is given, to the other theme, or to the whole number brought into
range.  When the change has been saved, the file says what the preferences are. -/
theorem turns_lawful_and_in_range (u : KeptPreferences.Use)
    (requests : List (Desk × KeptPreferences.Request)) :
    ∀ t ∈ u.turns requests,
      (t.after.kept.preferences.theme = .light ∨ t.after.kept.preferences.theme = .dark) ∧
        t.after.kept.preferences.precision.places ≤ 12 ∧ t.Lawful := by
  intro t ht
  refine ⟨?_, t.after.kept.preferences.precision.places_le, u.lawful_turns requests t ht⟩
  cases t.after.kept.preferences.theme
  · exact .inl rfl
  · exact .inr rfl

/-- A precision that is no number, a save that the device refuses, an edited copy, and a precision
out of range. -/
theorem turns_lawful_and_in_range_mixed :
    let u : KeptPreferences.Use := ⟨⟨{}, some ⟨⟨0, ["data"]⟩⟩⟩, []⟩
    let requests : List (Desk × KeptPreferences.Request) :=
      [({}, .choosePrecision (.float .nan)), ({ refusals := [some .opening] }, .switchTheme),
        ({}, .copy), ({}, .edit 0 fun p => { p with theme := .light }),
        ({}, .choosePrecision (.int 40))]
    ∃ t ∈ u.turns requests, t.after.kept.preferences = ⟨.dark, .clamp 12⟩ ∧
      t.after.copies = [{}] ∧ t.after.kept.preferences.precision.places ≤ 12 ∧ t.Lawful := by
  intro u requests
  obtain ⟨t, ht⟩ : ∃ t, (u.turns requests)[4]? = some t := ⟨_, rfl⟩
  have hmem := List.mem_of_getElem? ht
  have hlast : (u.turns requests)[4]?.map (fun t => (t.after.kept.preferences, t.after.copies)) =
      some (⟨.dark, .clamp 12⟩, [({} : Preferences)]) := by decide +kernel
  rw [ht, Option.map_some, Option.some.injEq, Prod.mk.injEq] at hlast
  obtain ⟨-, hrange, hlawful⟩ := turns_lawful_and_in_range u requests t hmem
  exact ⟨t, hmem, hlast.1, hlast.2, hrange, hlawful⟩

end Abacus

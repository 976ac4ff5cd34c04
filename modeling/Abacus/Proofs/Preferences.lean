import Abacus.Preferences
import Abacus.Proofs.Except
import Abacus.Proofs.Json.RoundTrip

/-!
# Abacus — Preferences — Reading a record

`WrittenIn` says which preferences a document writes.  Reading gives these and no others
(`ofJson_eq_ok_iff`), and of all documents only one that asks for an infinite precision is refused
as such (`ofJson_eq_infinite_iff`).
-/

namespace Abacus

namespace Theme

/-- A theme is read back by its name. -/
theorem ofName?_name (t : Theme) : ofName? t.name = some t := by
  cases t <;> rfl

theorem ofName?_eq_some_iff {s : String} {t : Theme} : ofName? s = some t ↔ s = t.name := by
  constructor
  · intro h
    unfold ofName? at h
    split at h <;> cases h <;> rfl
  · rintro rfl
    exact ofName?_name t

end Theme

/-- A precision is in range already. -/
theorem Precision.clamp_places (q : Precision) : clamp q.places = q := by
  obtain ⟨n, hn⟩ := q
  simp [clamp, Nat.min_eq_left hn]

namespace Preferences

/-- The preferences that a document writes.  It is an object; its theme, if it has one, is the name
of a theme, and its precision, if it has one, stands for a whole number, which is brought into
range.  Other fields do not matter. -/
structure WrittenIn (p : Preferences) (doc : Json) : Prop where
  isObject : ∃ fields, doc = .object fields
  theme : match doc.field? "theme" with
    | none   => p.theme = .light
    | some v => v = .string p.theme.name
  precision : match doc.field? "precision" with
    | none   => p.precision = .standard
    | some v => ∃ i, v.whole = .ok i ∧ p.precision = .clamp i

/-- A document that asks for an infinite precision. -/
def AsksForInfinite (doc : Json) : Prop :=
  ∃ negative, doc.field? "precision" = some (.float (.inf negative))

/-- A precision is any whole number, brought into its range. -/
theorem precision_eq_ok_iff {v : Json} {q : Precision} :
    Precision.ofJson v = .ok q ↔ ∃ i, v.whole = .ok i ∧ q = .clamp i := by
  unfold Precision.ofJson
  cases v.whole with
  | ok i => simp [eq_comm]
  | error e => cases e <;> simp

/-- Only infinity itself is refused as infinite. -/
theorem precision_eq_infinite_iff {v : Json} :
    Precision.ofJson v = .error .infinite ↔ ∃ negative, v = .float (.inf negative) := by
  unfold Precision.ofJson
  cases v with
  | float x => cases x <;> simp [Json.whole]
  | string s =>
      simp only [Json.whole]
      cases Decimal.lenientInt s with
      | ok i => simp
      | error e => cases e <;> simp
  | null | bool b | int i | array items | object fields | foreign => simp [Json.whole]

/-- The theme may be missing, and must be one of those that there are. -/
theorem theme_eq_ok_iff {doc : Json} {t : Theme} :
    Checked.optional "theme" .light (Reader.choice Theme.ofName?) doc = .ok t ↔
      match doc.field? "theme" with
      | none   => t = .light
      | some v => v = .string t.name := by
  unfold Checked.optional
  cases doc.field? "theme" with
  | none => simp [eq_comm]
  | some v =>
      cases v with
      | string s =>
          simp only [Checked.ofReader, Reader.choice, Json.string.injEq]
          rw [← Theme.ofName?_eq_some_iff]
          cases Theme.ofName? s <;> simp [Checked.under, Checked.refuse]
      | null | bool b | int i | float x | array items | object fields | foreign =>
          simp [Checked.ofReader, Reader.choice, Checked.under, Checked.refuse]

/-- Preferences are valid when both of their parts are. -/
theorem pair_eq_ok_iff {x : Checked Theme} {y : Checked Precision} {p : Preferences} :
    (Preferences.mk <$> x <*> y).toExcept.mapError PreferencesFailure.invalid = .ok p ↔
      x = .ok p.theme ∧ y = .ok p.precision := by
  obtain ⟨t, q⟩ := p
  cases x <;> cases y <;>
    simp [Functor.map, Seq.seq, Checked.seq, Checked.toExcept, Except.mapError]

theorem pair_ne_infinite (x : Checked Theme) (y : Checked Precision) :
    (Preferences.mk <$> x <*> y).toExcept.mapError PreferencesFailure.invalid ≠
      .error .infinitePrecision := by
  cases x <;> cases y <;>
    simp [Functor.map, Seq.seq, Checked.seq, Checked.toExcept, Except.mapError]

/-- Reading gives the preferences that the document writes. -/
theorem ofJson_eq_ok_iff {doc : Json} {p : Preferences} :
    ofJson doc = .ok p ↔ p.WrittenIn doc := by
  cases doc with
  | object fields =>
      have hwritten : p.WrittenIn (.object fields) ↔
          Checked.optional "theme" .light (Reader.choice Theme.ofName?) (.object fields) =
              .ok p.theme ∧
            match fields.lookup "precision" with
            | none   => p.precision = .standard
            | some v => Precision.ofJson v = .ok p.precision := by
        rw [theme_eq_ok_iff]
        constructor
        · rintro ⟨-, htheme, hprecision⟩
          refine ⟨htheme, ?_⟩
          simp only [Json.field?] at hprecision
          cases h : fields.lookup "precision" <;> rw [h] at hprecision
          · exact hprecision
          · exact precision_eq_ok_iff.mpr hprecision
        · rintro ⟨htheme, hprecision⟩
          refine ⟨⟨fields, rfl⟩, htheme, ?_⟩
          simp only [Json.field?]
          cases h : fields.lookup "precision" <;> rw [h] at hprecision
          · exact hprecision
          · exact precision_eq_ok_iff.mp hprecision
      rw [hwritten, ofJson]
      cases fields.lookup "precision" with
      | none => simp only [pair_eq_ok_iff]; simp [eq_comm]
      | some v =>
          cases hv : Precision.ofJson v with
          | ok q => simp only [hv, pair_eq_ok_iff]; simp [eq_comm]
          | error e => cases e <;> simp [hv, pair_eq_ok_iff]
  | null | bool b | int i | float x | string s | array items | foreign =>
      constructor
      · intro h; cases h
      · rintro ⟨⟨fields, h⟩, -, -⟩; cases h

/-- A document asks for an infinite precision exactly when reading it fails for that. -/
theorem ofJson_eq_infinite_iff {doc : Json} :
    ofJson doc = .error .infinitePrecision ↔ AsksForInfinite doc := by
  unfold AsksForInfinite
  cases doc with
  | object fields =>
      rw [ofJson, Json.field?]
      cases fields.lookup "precision" with
      | none => simp [pair_ne_infinite]
      | some v =>
          simp only [Option.some.injEq, ← precision_eq_infinite_iff]
          cases hv : Precision.ofJson v with
          | ok q => simp [pair_ne_infinite]
          | error e => cases e <;> simp [pair_ne_infinite]
  | null | bool b | int i | float x | string s | array items | foreign =>
      constructor
      · intro h; cases h
      · rintro ⟨negative, h⟩; cases h

/-- Preferences write themselves. -/
theorem writtenIn_toJson (p : Preferences) : p.WrittenIn p.toJson where
  isObject := ⟨_, rfl⟩
  theme := rfl
  precision := ⟨p.precision.places, rfl, (Precision.clamp_places p.precision).symm⟩

theorem readsBack_toJson (p : Preferences) : p.toJson.ReadsBack := by
  have hdigits : (Decimal.digitsOf p.precision.places).length ≤ 2 :=
    (Nat.length_toDigits_le_iff (by decide) (by decide)).mpr
      (lt_of_le_of_lt p.precision.places_le (by decide))
  simp only [toJson, Json.ReadsBack, Json.FieldsReadBack]
  exact ⟨by simp, trivial, by simp, le_trans hdigits (by decide), trivial⟩

end Preferences

end Abacus

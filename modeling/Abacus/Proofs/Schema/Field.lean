import Mathlib.Tactic.Common
import Abacus.Schema.Field

/-!
# Abacus — Schema — When fields are read

A value of several fields is read exactly when each of the fields is (`Checked.seq_eq_ok_iff`,
`Checked.map_eq_ok_iff`), and a field that has to be there when it is there and has the form asked
for (`Checked.required_eq_ok_iff`).
-/

namespace Abacus
variable {α β : Type}

namespace Checked

theorem map_eq_ok_iff {f : α → β} {x : Checked α} {b : β} :
    f <$> x = .ok b ↔ ∃ a, x = .ok a ∧ f a = b := by
  cases x <;> simp [Functor.map, Checked.seq]

theorem seq_eq_ok_iff {f : Checked (α → β)} {x : Checked α} {b : β} :
    f <*> x = .ok b ↔ ∃ g a, f = .ok g ∧ x = .ok a ∧ g a = b := by
  cases f <;> cases x <;> simp [Seq.seq, Checked.seq]

theorem under_eq_ok_iff {step : String} {x : Checked α} {a : α} :
    under step x = .ok a ↔ x = .ok a := by
  cases x <;> simp [under]

theorem ofReader_eq_ok_iff {read : Reader α} {v : Json} {a : α} :
    ofReader read v = .ok a ↔ read v = .ok a := by
  unfold ofReader
  cases read v <;> simp [refuse]

theorem required_eq_ok_iff {name : String} {read : Reader α} {v : Json} {a : α} :
    required name read v = .ok a ↔ ∃ w, v.field? name = some w ∧ read w = .ok a := by
  unfold required
  rw [under_eq_ok_iff]
  cases v.field? name with
  | none => simp [refuse]
  | some w => simp [ofReader_eq_ok_iff]

theorem ofObject_eq_ok_iff {read : Json → Checked α} {v : Json} {a : α} :
    ofObject read v = .ok a ↔ (∃ fields, v = .object fields) ∧ read v = .ok a := by
  cases v <;> simp [ofObject, refuse]

end Checked

namespace Reader

theorem text_eq_ok_iff {v : Json} {s : String} : text v = .ok s ↔ v = .string s := by
  cases v <;> simp [text]

theorem nonEmptyText_eq_ok_iff {v : Json} {s : String} :
    nonEmptyText v = .ok s ↔ v = .string s ∧ s ≠ "" := by
  cases v with
  | string t =>
      show (if t.isEmpty then Except.error IssueKind.textTooShort else .ok t) = .ok s ↔ _
      rw [Json.string.injEq]
      split_ifs with ht
      · rw [String.isEmpty_iff] at ht
        exact ⟨nofun, fun ⟨h, hne⟩ => absurd (h.symm.trans ht) hne⟩
      · rw [String.isEmpty_iff] at ht
        rw [Except.ok.injEq]
        exact ⟨fun h => ⟨h, h ▸ ht⟩, And.left⟩
  | null | bool b | int i | float x | array items | object fields | foreign =>
      simp [nonEmptyText, text, bind, Except.bind]

end Reader

end Abacus

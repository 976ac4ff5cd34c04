import Abacus.History
import Abacus.Proofs.Json.RoundTrip
import Abacus.Proofs.Schema.Field

/-!
# Abacus — History — Entries and their documents

An entry comes back from its document when it has an identifier (`Entry.ofJson_toJson`), and no
entry without one is read (`Entry.id_ne_of_ofJson`).  So a history of entries with identifiers
comes back from its document, in order (`History.readItems_map_toJson`).
-/

namespace Abacus

namespace Entry

/-- An entry is read from an object with its four texts, if the identifier is not empty. -/
theorem ofJson_eq_ok_iff {v : Json} {e : Entry} :
    ofJson v = .ok e ↔
      (∃ fields, v = .object fields) ∧ e.id ≠ "" ∧
        v.field? "id" = some (.string e.id) ∧
        v.field? "expression" = some (.string e.expression) ∧
        v.field? "result" = some (.string e.result) ∧
        v.field? "timestamp" = some (.string e.timestamp) := by
  simp only [ofJson, Checked.ofObject_eq_ok_iff, Checked.seq_eq_ok_iff, Checked.map_eq_ok_iff,
    Checked.required_eq_ok_iff, Reader.text_eq_ok_iff, Reader.nonEmptyText_eq_ok_iff]
  constructor
  · rintro ⟨hobject, _, _, ⟨_, _, ⟨_, _, ⟨_, ⟨_, hid, rfl, hne⟩, rfl⟩, ⟨_, hexpression, rfl⟩, rfl⟩,
      ⟨_, hresult, rfl⟩, rfl⟩, ⟨_, htimestamp, rfl⟩, rfl⟩
    exact ⟨hobject, hne, hid, hexpression, hresult, htimestamp⟩
  · rintro ⟨hobject, hne, hid, hexpression, hresult, htimestamp⟩
    exact ⟨hobject, _, _, ⟨_, _, ⟨_, _, ⟨_, ⟨_, hid, rfl, hne⟩, rfl⟩, ⟨_, hexpression, rfl⟩, rfl⟩,
      ⟨_, hresult, rfl⟩, rfl⟩, ⟨_, htimestamp, rfl⟩, rfl⟩

/-- An entry comes back from its document. -/
theorem ofJson_toJson {e : Entry} (h : e.id ≠ "") : ofJson e.toJson = .ok e :=
  ofJson_eq_ok_iff.mpr ⟨⟨_, rfl⟩, h, rfl, rfl, rfl, rfl⟩

theorem id_ne_of_ofJson {v : Json} {e : Entry} (h : ofJson v = .ok e) : e.id ≠ "" :=
  (ofJson_eq_ok_iff.mp h).2.1

theorem readsBack_toJson (e : Entry) : e.toJson.ReadsBack := by
  simp [toJson, Json.ReadsBack, Json.FieldsReadBack]

end Entry

namespace History

theorem standardCapacity_pos : 0 < standardCapacity := by decide

/-- Nothing but its capacity and its entries is in a history. -/
theorem eq_of_entries {h k : History} (hcapacity : h.capacity = k.capacity)
    (hentries : h.entries = k.entries) : h = k := by
  cases h
  cases k
  cases hcapacity
  cases hentries
  rfl

/-- A history is as long as it may be already. -/
theorem ofList_entries {h : History} {capacity : ℕ} (hcapacity : h.capacity = capacity)
    (pos : 0 < capacity) : ofList capacity pos h.entries = h :=
  eq_of_entries hcapacity.symm (List.take_of_length_le (hcapacity ▸ h.length_le))

/-- All the entries come back from theirs, none being dropped. -/
theorem readItems_map_toJson {es : List Entry} (h : ∀ e ∈ es, e.id ≠ "") :
    readItems (es.map Entry.toJson) = (es, 0) := by
  induction es with
  | nil => rfl
  | cons e es ih =>
      rw [List.forall_mem_cons] at h
      rw [List.map_cons, readItems, ih h.2, Entry.ofJson_toJson h.1]

theorem id_ne_of_mem_readItems {items : List Json} :
    ∀ e ∈ (readItems items).1, e.id ≠ "" := by
  induction items with
  | nil => nofun
  | cons v vs ih =>
      rw [readItems]
      cases hv : Entry.ofJson v with
      | ok e => exact List.forall_mem_cons.mpr ⟨Entry.id_ne_of_ofJson hv, ih⟩
      | issues l => exact ih

theorem readsBack_toJson (h : History) : h.toJson.ReadsBack := by
  have hitems (es : List Entry) : Json.ItemsReadBack (es.map Entry.toJson) := by
    induction es with
    | nil => trivial
    | cons e es ih => exact ⟨e.readsBack_toJson, ih⟩
  rw [toJson, Json.ReadsBack]
  exact hitems h.entries

end History

end Abacus

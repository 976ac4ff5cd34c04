import Mathlib.Data.Int.Notation
import Mathlib.Data.Nat.Notation
import Abacus.Clock

/-!
# Abacus — Clock — Identifiers given out in turn

The identifiers of successive moments grow whatever the clock does (`Identifier.pairwise_series`),
since each is greater than the one before it (`Identifier.lt_next`).
-/

namespace Abacus.Identifier

/-- The identifiers given out at readings of the clock, one after the other, beginning after
`last`. -/
def series (last : ℕ) : List ℤ → List ℕ
  | []             => []
  | us :: readings => next last us :: series (next last us) readings

/-- Each identifier is greater than the last one given out. -/
theorem lt_next (last : ℕ) (us : ℤ) : last < next last us :=
  Nat.lt_of_lt_of_le last.lt_succ_self (Nat.le_max_right _ _)

/-- All identifiers are greater than the one that they begin after. -/
theorem lt_of_mem_series {last id : ℕ} {readings : List ℤ} (h : id ∈ series last readings) :
    last < id := by
  induction readings generalizing last with
  | nil => cases h
  | cons us readings ih =>
      rcases List.mem_cons.mp h with rfl | h
      · exact lt_next last us
      · exact Nat.lt_trans (lt_next last us) (ih h)

theorem pairwise_series (last : ℕ) (readings : List ℤ) :
    (series last readings).Pairwise (· < ·) := by
  induction readings generalizing last with
  | nil => exact .nil
  | cons us readings ih => exact List.pairwise_cons.mpr ⟨fun _ => lt_of_mem_series, ih _⟩

/-- What is below the first identifier is below them all. -/
theorem forall_lt_series_iff {bound last : ℕ} {readings : List ℤ} :
    (∀ id ∈ series last readings, bound < id) ↔ ∀ us ∈ readings.head?, bound < next last us := by
  cases readings with
  | nil => simp [series]
  | cons us readings =>
      rw [series, List.forall_mem_cons]
      constructor
      · rintro ⟨hfirst, -⟩ _ ⟨⟩
        exact hfirst
      · intro h
        have hfirst := h us rfl
        exact ⟨hfirst, fun id hid => Nat.lt_trans hfirst (lt_of_mem_series hid)⟩

end Abacus.Identifier

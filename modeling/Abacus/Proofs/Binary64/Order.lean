import Mathlib.Algebra.Order.Field.Power
import Mathlib.Data.Nat.Cast.Field
import Mathlib.Data.Rat.Cast.Order
import Mathlib.Tactic.NormNum
import Mathlib.Tactic.Positivity
import Mathlib.Tactic.Ring
import Abacus.Binary64.Basic

/-!
# Abacus — Binary64 — The numbers in order

Each finite number as the rational that it is (`toRat`).  The order of the numbers is the order of
the rationals (`lt_iff`), and a whole number that is not zero is one at least
(`one_le_of_isIntegral`).
-/

namespace Abacus.Binary64

/-- The value of a finite number; what is not finite counts as zero. -/
def toRat : Binary64 → ℚ
  | .finite s m e _ => (if s then -1 else 1) * (m * 2 ^ e)
  | _               => 0

section Finite
variable {s t : Bool} {m n : ℕ} {e f : ℤ} {hm : Canonical m e} {hn : Canonical n f}

/-- In units of a power of two no greater than its last bit, a number is whole. -/
theorem cast_signedUnits (s : Bool) (m : ℕ) {e low : ℤ} (h : low ≤ e) :
    ((signedUnits s m e low : ℤ) : ℚ) = (if s then -1 else 1) * (m * 2 ^ e) / 2 ^ low := by
  have hscaled : ((scaled m e low : ℕ) : ℚ) = m * 2 ^ e / 2 ^ low := by
    obtain ⟨k, hk⟩ := Int.eq_ofNat_of_zero_le (sub_nonneg.mpr h)
    rw [mul_div_assoc, ← zpow_sub₀ (by norm_num), hk, scaled, hk]
    push_cast
    simp
  unfold signedUnits
  split_ifs <;> push_cast <;> rw [hscaled] <;> ring

/-- Numbers are compared by their values. -/
theorem lt_iff : (finite s m e hm).lt (finite t n f hn) = true ↔
    (finite s m e hm).toRat < (finite t n f hn).toRat := by
  have hp : (0 : ℚ) < 2 ^ min e f := by positivity
  rw [lt, decide_eq_true_iff, ← Int.cast_lt (R := ℚ), cast_signedUnits _ _ (min_le_left ..),
    cast_signedUnits _ _ (min_le_right ..), div_lt_div_iff_of_pos_right hp]
  rfl

theorem isZero_iff : (finite s m e hm).isZero = true ↔ m = 0 := by
  simp [isZero]

theorem isIntegral_of_isZero {v : Binary64} (h : v.isZero = true) : v.isIntegral = true := by
  cases v <;> simp_all [isZero, isIntegral]

/-- A whole number is the whole number next to it. -/
theorem magnitude_of_isIntegral (h : (finite s m e hm).isIntegral = true) :
    ((m * 2 ^ e.toNat / 2 ^ (-e).toNat : ℕ) : ℚ) = m * 2 ^ e := by
  simp only [isIntegral, beq_iff_eq] at h
  rcases Int.eq_nat_or_neg e with ⟨k, rfl | rfl⟩
  · simp
  · simp only [Int.toNat_neg_natCast, neg_neg, Int.toNat_natCast, pow_zero, Nat.mul_one] at h ⊢
    rw [Nat.cast_div (Nat.dvd_of_mod_eq_zero h) (by positivity)]
    push_cast
    rw [zpow_neg, zpow_natCast, div_eq_mul_inv]

theorem one_le_of_isIntegral (h : (finite s m e hm).isIntegral = true) (hpos : 0 < m) :
    (1 : ℚ) ≤ m * 2 ^ e := by
  have hvalue : (0 : ℚ) < m * 2 ^ e := by positivity
  rw [← magnitude_of_isIntegral h] at hvalue ⊢
  exact_mod_cast hvalue

end Finite

end Abacus.Binary64

import Abacus.Decimal.Literal
import Abacus.Decimal.Numeral
import Abacus.Proofs.Binary64.Rounding

/-!
# Abacus — Decimal — The shortest digits read back

Whatever grid gives the digits, they lie in the reach of the number (`inReach_shortest`), and so
they are read as the number (`nearest_of_toRat_eq`).  On every grid but the last this has been
tested; on the last one the number itself lies.
-/

namespace Abacus

namespace Decimal

/-- The number that a decimal stands for. -/
def toRat (d : Decimal) : ℚ :=
  d.digits * 10 ^ d.exponent

theorem toRat_nonneg (d : Decimal) : 0 ≤ d.toRat := by
  unfold toRat
  positivity

namespace Neighbourhood
variable {m : ℕ} {e : ℤ}

/-- Whole numbers of one unit compare as what they count. -/
theorem le_iff_of_units {a b : ℕ} {x y u : ℚ} (hu : 0 < u) (ha : (a : ℚ) = x * u)
    (hb : (b : ℚ) = y * u) : a ≤ b ↔ x ≤ y := by
  rw [← Nat.cast_le (α := ℚ), ha, hb, mul_le_mul_iff_left₀ hu]

/-- The bounds and a point in the units in which they are compared. -/
theorem cast_bounds (hm : 0 < m) (n : ℕ) (g : ℤ) :
    ∃ u : ℚ, 0 < u ∧
      ((n * 10 ^ g.toNat * (Neighbourhood.of m e).unit : ℕ) : ℚ) = n * 10 ^ g * u ∧
      ((((Neighbourhood.of m e).value - (Neighbourhood.of m e).below) * 10 ^ (-g).toNat : ℕ) : ℚ) =
        (m - if m = 2 ^ 52 ∧ -1074 < e then 1 / 4 else 1 / 2) * 2 ^ e * u ∧
      ((((Neighbourhood.of m e).value + (Neighbourhood.of m e).above) * 10 ^ (-g).toNat : ℕ) : ℚ) =
        (m + 1 / 2) * 2 ^ e * u := by
  have h2 := zpow_toNat 2 (by decide) e
  have h10 := zpow_toNat 10 (by decide) g
  push_cast at h2 h10
  refine ⟨4 * 2 ^ (-e).toNat * 10 ^ (-g).toNat, by positivity, ?_, ?_, ?_⟩
  · simp only [Neighbourhood.of]
    push_cast
    rw [h10]
    ring
  · have hle : (if m = 2 ^ 52 ∧ -1074 < e then 1 else 2) * 2 ^ e.toNat ≤ 4 * m * 2 ^ e.toNat :=
      Nat.mul_le_mul_right _ (by split_ifs <;> omega)
    simp only [Neighbourhood.of]
    rw [Nat.cast_mul, Nat.cast_sub hle]
    push_cast
    rw [h2]
    split_ifs <;> ring
  · simp only [Neighbourhood.of]
    push_cast
    rw [h2]
    ring

/-- A grid point is taken exactly when it is in the reach of the number. -/
theorem contains_iff (hm : 0 < m) (n : ℕ) (g : ℤ) :
    (Neighbourhood.of m e).contains n g = true ↔ InReach m e (n * 10 ^ g) := by
  obtain ⟨u, hu, hpoint, hlow, hhigh⟩ := cast_bounds (e := e) hm n g
  have hclosed : (Neighbourhood.of m e).closed = (m % 2 == 0) := rfl
  have hle₁ := le_iff_of_units hu hlow hpoint
  have hle₂ := le_iff_of_units hu hpoint hhigh
  have hlt₁ := not_congr (le_iff_of_units hu hpoint hlow)
  have hlt₂ := not_congr (le_iff_of_units hu hhigh hpoint)
  rw [not_le, not_le] at hlt₁ hlt₂
  simp only [contains, InReach, hclosed, beq_iff_eq, ← hle₁, ← hle₂, ← hlt₁, ← hlt₂]
  split_ifs with heven
  · rw [decide_eq_true_iff]
    exact ⟨fun h => .inr ⟨heven, h⟩, fun h => h.elim (fun h => ⟨h.1.le, h.2.le⟩) And.right⟩
  · rw [decide_eq_true_iff]
    exact ⟨.inl, fun h => h.elim id fun h => absurd h.1 heven⟩

/-- A point found on a grid is one that rounds back. -/
theorem contains_of_onGrid {v : Neighbourhood} {g : ℤ} {n : ℕ} (h : v.onGrid g = some n) :
    v.contains n g = true := by
  unfold onGrid at h
  simp only at h
  split at h
  · next h₁ h₂ =>
      obtain rfl := Option.some.inj h
      split_ifs <;> assumption
  · next h₁ _ => obtain rfl := Option.some.inj h; exact h₁
  · next _ h₂ => obtain rfl := Option.some.inj h; exact h₂
  · cases h

/-- The digits are a grid point that has been tested, or the last grid's. -/
theorem firstHit_cases (v : Neighbourhood) (g : ℤ) (finer : ℕ) :
    (∃ n g', v.firstHit g finer = ⟨n, g'⟩ ∧ v.contains n g' = true) ∨
      v.firstHit g finer = ⟨v.floorOn (g - finer), g - finer⟩ := by
  induction finer generalizing g with
  | zero => exact .inr (by rw [firstHit, Nat.cast_zero, sub_zero])
  | succ finer ih =>
      rw [firstHit]
      cases hgrid : v.onGrid g with
      | some n => exact .inl ⟨n, g, rfl, contains_of_onGrid hgrid⟩
      | none =>
          have := ih (g - 1)
          rwa [show g - 1 - (finer : ℤ) = g - (finer + 1 : ℕ) by push_cast; ring] at this

/-- On a grid that is as fine as the number, the number is a grid point. -/
theorem floorOn_min (m : ℕ) (e : ℤ) :
    ((Neighbourhood.of m e).floorOn (min e 0) : ℚ) * 10 ^ min e 0 = m * 2 ^ e := by
  rcases Int.eq_nat_or_neg e with ⟨k, rfl | rfl⟩
  · have hfloor : (Neighbourhood.of m k).floorOn 0 = m * 2 ^ k := by
      simp only [floorOn, Neighbourhood.of, Int.toNat_natCast, Int.toNat_neg_natCast,
        Int.toNat_zero, neg_zero, pow_zero, mul_one]
      rw [Nat.mul_assoc, Nat.mul_div_cancel_left _ (by decide)]
    rw [min_eq_right (Int.natCast_nonneg k), hfloor]
    push_cast
    simp
  · have hfloor : (Neighbourhood.of m (-k)).floorOn (-k) = m * 5 ^ k := by
      simp only [floorOn, Neighbourhood.of, Int.toNat_natCast, Int.toNat_neg_natCast, neg_neg,
        pow_zero, mul_one]
      rw [show 4 * m * 10 ^ k = m * 5 ^ k * (4 * 2 ^ k) by
        rw [show 10 ^ k = 2 ^ k * 5 ^ k from Nat.mul_pow 2 5 k]; ring]
      exact Nat.mul_div_cancel _ (by positivity)
    have hten : (10 : ℚ) ^ k = 2 ^ k * 5 ^ k := by rw [← mul_pow]; norm_num
    rw [min_eq_left (by omega), hfloor]
    push_cast
    rw [zpow_neg, zpow_neg, zpow_natCast, zpow_natCast, hten]
    field_simp

end Neighbourhood

theorem one_le_coarsest (m : ℕ) (e : ℤ) : 1 ≤ coarsest m e := by
  unfold coarsest
  omega

/-- The shortest digits lie in the reach of the number. -/
theorem inReach_shortest {m : ℕ} (hm : 0 < m) (e : ℤ) : InReach m e (shortest m e).toRat := by
  have hlast : coarsest m e - (coarsest m e - min e 0).toNat = min e 0 := by
    have := one_le_coarsest m e
    omega
  unfold shortest
  rcases Neighbourhood.firstHit_cases (Neighbourhood.of m e) (coarsest m e)
    (coarsest m e - min e 0).toNat with ⟨n, g, heq, hhit⟩ | heq
  · rw [heq]
    exact (Neighbourhood.contains_iff hm n g).mp hhit
  · rw [heq, hlast, toRat, Neighbourhood.floorOn_min]
    exact InReach.self m e

/-- A decimal of the same value as the shortest digits is read as the number. -/
theorem nearest_of_toRat_eq {m : ℕ} {e : ℤ} {d : Decimal} (hc : Canonical m e) (hm : 0 < m)
    (h : d.toRat = (shortest m e).toRat) (negative : Bool) :
    nearest negative d = .finite negative m e hc := by
  have hreach := inReach_shortest hm e
  rw [← h] at hreach
  exact Binary64.ofDecimal_of_inReach hc hm hreach negative

end Decimal

end Abacus

import Mathlib.Algebra.Order.Floor.Semifield
import Mathlib.Data.Rat.Floor
import Abacus.Proofs.Binary64.Order
import Abacus.Proofs.Decimal.Literal

/-!
# Abacus — Decimal — The grid of the shortest digits

The shortest digits lie on the coarsest grid that has a point in the reach of the number
(`not_inReach_of_coarser`): when a grid has one, one of the two points next to the number is in
reach too, and the grid is hit.  So the last digit is no zero (`digits_shortest_mod_ten_ne`), and
no digit stands behind the point exactly when the number is whole
(`exponent_shortest_nonneg_iff`).
-/

namespace Abacus

/-- What lies between two numbers in reach is in reach. -/
theorem InReach.convex {m : ℕ} {e : ℤ} {x y z : ℚ} (hx : InReach m e x) (hz : InReach m e z)
    (hxy : x ≤ y) (hyz : y ≤ z) : InReach m e y := by
  unfold InReach at *
  dsimp only at *
  by_cases heven : m % 2 = 0
  · refine .inr ⟨heven, ?_, ?_⟩
    · exact le_trans (hx.elim (fun h => h.1.le) fun h => h.2.1) hxy
    · exact le_trans hyz (hz.elim (fun h => h.2.le) fun h => h.2.2)
  · have hx := hx.resolve_right fun h => heven h.1
    have hz := hz.resolve_right fun h => heven h.1
    exact .inl ⟨hx.1.trans_le hxy, hyz.trans_lt hz.2⟩

namespace Decimal

namespace Neighbourhood
variable {m : ℕ} {e : ℤ}

/-- The number lies between the grid points next to it. -/
theorem floorOn_bounds (m : ℕ) (e g : ℤ) :
    ((Neighbourhood.of m e).floorOn g : ℚ) * 10 ^ g ≤ m * 2 ^ e ∧
      m * 2 ^ e < ((Neighbourhood.of m e).floorOn g + 1 : ℕ) * (10 : ℚ) ^ g := by
  have hg : (0 : ℚ) < 10 ^ g := by positivity
  have hratio : ((4 * m * 2 ^ e.toNat * 10 ^ (-g).toNat : ℕ) : ℚ) /
      (4 * 2 ^ (-e).toNat * 10 ^ g.toNat : ℕ) = m * 2 ^ e / 10 ^ g := by
    have h2 := zpow_toNat 2 (by decide) e
    have h10 := zpow_toNat 10 (by decide) g
    push_cast at h2 h10 ⊢
    rw [h2, h10]
    field_simp
  have hfloor : (Neighbourhood.of m e).floorOn g = ⌊(m * 2 ^ e / 10 ^ g : ℚ)⌋₊ := by
    rw [← hratio, Nat.floor_div_eq_div]
    rfl
  rw [hfloor, ← le_div_iff₀ hg, ← div_lt_iff₀ hg]
  refine ⟨Nat.floor_le (by positivity), ?_⟩
  push_cast
  exact Nat.lt_floor_add_one _

/-- A grid with a point in reach is hit. -/
theorem onGrid_ne_none (hm : 0 < m) {k : ℕ} {g : ℤ} (h : InReach m e (k * 10 ^ g)) :
    (Neighbourhood.of m e).onGrid g ≠ none := by
  obtain ⟨hle, hlt⟩ := floorOn_bounds m e g
  have hself := InReach.self m e
  have hg : (0 : ℚ) ≤ 10 ^ g := by positivity
  have hnext : (Neighbourhood.of m e).contains ((Neighbourhood.of m e).floorOn g) g = true ∨
      (Neighbourhood.of m e).contains ((Neighbourhood.of m e).floorOn g + 1) g = true := by
    rw [contains_iff hm, contains_iff hm]
    rcases Nat.lt_or_ge ((Neighbourhood.of m e).floorOn g) k with hk | hk
    · refine .inr (hself.convex h hlt.le (mul_le_mul_of_nonneg_right ?_ hg))
      exact_mod_cast hk
    · refine .inl (h.convex hself (mul_le_mul_of_nonneg_right ?_ hg) hle)
      exact_mod_cast hk
  unfold onGrid
  simp only
  split
  · exact Option.some_ne_none _
  · exact Option.some_ne_none _
  · exact Option.some_ne_none _
  · next h₁ h₂ => simp [h₁, h₂] at hnext

/-- No grid before the first hit is hit. -/
theorem onGrid_of_coarser {v : Neighbourhood} {g g' : ℤ} {finer : ℕ}
    (h : (v.firstHit g finer).exponent < g') (hg' : g' ≤ g) : v.onGrid g' = none := by
  induction finer generalizing g with
  | zero => exact absurd h (not_lt.mpr hg')
  | succ finer ih =>
      rw [firstHit] at h
      split at h
      · exact absurd h (not_lt.mpr hg')
      · next hnone =>
          rcases hg'.eq_or_lt with rfl | hlt
          · exact hnone
          · exact ih h (by omega)

end Neighbourhood

/-- The coarsest grid tried is wider than twice the number. -/
theorem two_mul_le_ten_zpow_coarsest (m : ℕ) (e : ℤ) :
    2 * (m * 2 ^ e) ≤ (10 : ℚ) ^ coarsest m e := by
  generalize hq : m * 2 ^ e.toNat / 2 ^ (-e).toNat = q
  have hlt : (m * 2 ^ e : ℚ) < (q + 1 : ℕ) := by
    rw [← binary_ratio, ← hq, ← Nat.floor_div_eq_div (K := ℚ)]
    push_cast
    exact Nat.lt_floor_add_one _
  have hlog : q + 1 ≤ 2 ^ (q.log2 + 1) := Nat.lt_log2_self
  have hcoarsest : coarsest m e = (((q.log2 + 2) / 3 + 1 : ℕ) : ℤ) := by
    rw [coarsest, hq]
    push_cast
    rfl
  calc 2 * (m * 2 ^ e : ℚ) ≤ 2 * (2 ^ (q.log2 + 1) : ℕ) := by
        gcongr
        exact hlt.le.trans (by exact_mod_cast hlog)
    _ = 2 ^ (q.log2 + 2) := by
        push_cast
        ring
    _ ≤ 2 ^ (3 * ((q.log2 + 2) / 3 + 1)) := pow_le_pow_right₀ (by norm_num) (by omega)
    _ = 8 ^ ((q.log2 + 2) / 3 + 1) := by
        rw [pow_mul]
        norm_num
    _ ≤ 10 ^ ((q.log2 + 2) / 3 + 1) := by
        gcongr
        norm_num
    _ = 10 ^ coarsest m e := by rw [hcoarsest, zpow_natCast]

section Shortest
variable {m : ℕ} {e : ℤ}

/-- No point of a coarser grid than the one of the shortest digits reads back. -/
theorem not_inReach_of_coarser (hm : 0 < m) {k : ℕ} {g : ℤ} (h : (shortest m e).exponent < g) :
    ¬ InReach m e (k * 10 ^ g) := by
  intro hreach
  rcases le_or_gt g (coarsest m e) with hg | hg
  · exact Neighbourhood.onGrid_ne_none hm hreach (Neighbourhood.onGrid_of_coarser h hg)
  -- so coarse a grid has no point between zero and twice the number
  have hone : (1 : ℚ) ≤ m := by exact_mod_cast hm
  have hp : (0 : ℚ) < 2 ^ e := by positivity
  obtain ⟨hlow, hhigh⟩ := hreach.bounds
  rcases Nat.eq_zero_or_pos k with rfl | hk
  · rw [Nat.cast_zero, zero_mul] at hlow
    nlinarith
  · have hpoint : (10 : ℚ) ^ coarsest m e ≤ k * 10 ^ g := by
      have hk : (1 : ℚ) ≤ k := by exact_mod_cast hk
      calc (10 : ℚ) ^ coarsest m e ≤ 10 ^ g := zpow_le_zpow_right₀ (by norm_num) hg.le
        _ ≤ k * 10 ^ g := le_mul_of_one_le_left (by positivity) hk
    have htwice := two_mul_le_ten_zpow_coarsest m e
    nlinarith

/-- The shortest digits do not end with a zero. -/
theorem digits_shortest_mod_ten_ne (hm : 0 < m) : (shortest m e).digits % 10 ≠ 0 := by
  intro hzero
  obtain ⟨k, hk⟩ := Nat.dvd_of_mod_eq_zero hzero
  refine not_inReach_of_coarser hm (k := k) (lt_add_one (shortest m e).exponent) ?_
  have hreach := inReach_shortest hm e
  rw [toRat, hk] at hreach
  rw [zpow_add_one₀ (by norm_num)]
  convert hreach using 1
  push_cast
  ring

/-- The shortest digits of a whole number, and only of one, reach no further than the units. -/
theorem exponent_shortest_nonneg_iff (hm : 0 < m) (s : Bool) (hc : Canonical m e) :
    0 ≤ (shortest m e).exponent ↔ (Binary64.finite s m e hc).isIntegral = true := by
  constructor
  · intro hexponent
    obtain ⟨k, hk⟩ := Int.eq_ofNat_of_zero_le hexponent
    have hreach := (inReach_shortest hm e).bounds
    rw [toRat, hk] at hreach
    rcases Int.eq_nat_or_neg e with ⟨j, rfl | rfl⟩
    · simp [Binary64.isIntegral, Nat.mod_one]
    · -- at most half a last bit away, a whole number of last bits is the number itself
      have hp : (0 : ℚ) < 2 ^ (j : ℤ) := by positivity
      rw [zpow_neg, ← div_eq_mul_inv, ← div_eq_mul_inv, div_le_iff₀ hp, le_div_iff₀ hp] at hreach
      obtain ⟨hlow, hhigh⟩ := hreach
      generalize hpoint : (shortest m (-j)).digits * 10 ^ k * 2 ^ j = n
      have hn : ((shortest m (-j)).digits * 10 ^ (k : ℤ) * 2 ^ (j : ℤ) : ℚ) = n := by
        rw [← hpoint]
        push_cast
        rfl
      rw [hn] at hlow hhigh
      have hle : 2 * m ≤ 2 * n + 1 := by
        have : (2 * m : ℚ) ≤ 2 * n + 1 := by linarith
        exact_mod_cast this
      have hge : 2 * n ≤ 2 * m + 1 := by
        have : (2 * n : ℚ) ≤ 2 * m + 1 := by linarith
        exact_mod_cast this
      obtain rfl : m = n := by omega
      have hdvd : 2 ^ j ∣ m := ⟨_, by rw [Nat.mul_comm]; exact hpoint.symm⟩
      simpa [Binary64.isIntegral] using Nat.mod_eq_zero_of_dvd hdvd
  · intro hwhole
    by_contra hexponent
    have hself := InReach.self m e
    rw [← Binary64.magnitude_of_isIntegral hwhole] at hself
    exact not_inReach_of_coarser hm (not_le.mp hexponent) (by simpa using hself)

end Shortest

end Decimal

end Abacus

import Abacus.Proofs.Binary64.Order
import Abacus.Proofs.Binary64.Rounding

/-!
# Abacus — Binary64 — The nearest number

Each rational that is not too large lies in the reach of a number (`exists_inReach`), which is the
one that it rounds to (`ofRat_of_inReach`), and no finite number is nearer (`isNearest_ofRat`): the
numbers next to `m · 2 ^ e` are a last bit away, or half a last bit below a power of two
(`Canonical.next_le`, `Canonical.le_previous`).
-/

namespace Abacus

section Neighbours
variable {m n : ℕ} {e f : ℤ}

/-- What a number is apart from the next one below it, in last bits. -/
def gapBelow (m : ℕ) (e : ℤ) : ℚ :=
  if m = 2 ^ 52 ∧ -1074 < e then 1 / 2 else 1

theorem gapBelow_le_one (m : ℕ) (e : ℤ) : gapBelow m e ≤ 1 := by
  unfold gapBelow
  split_ifs <;> norm_num

/-- A number with a lesser exponent is half a last bit below a power of two at most. -/
theorem Canonical.le_of_lt (hn : Canonical n f) (h : f < e) :
    (n * 2 ^ f : ℚ) ≤ (2 ^ 52 - 1 / 2) * 2 ^ e := by
  have hmantissa : (n : ℚ) ≤ 2 ^ 53 - 1 := by
    have : n + 1 ≤ 2 ^ 53 := hn.1
    have : ((n + 1 : ℕ) : ℚ) ≤ (2 ^ 53 : ℕ) := Nat.cast_le.mpr this
    push_cast at this
    linarith
  calc (n * 2 ^ f : ℚ) ≤ (2 ^ 53 - 1) * 2 ^ (e - 1) := by
        gcongr
        · norm_num
        · omega
    _ = (2 ^ 52 - 1 / 2) * 2 ^ e := by
        rw [zpow_sub_one₀ (by norm_num)]
        ring

/-- Above a number there is none for a last bit. -/
theorem Canonical.next_le (hm : Canonical m e) (hn : Canonical n f)
    (h : (m * 2 ^ e : ℚ) < n * 2 ^ f) : ((m + 1) * 2 ^ e : ℚ) ≤ n * 2 ^ f := by
  have hp : (0 : ℚ) < 2 ^ e := by positivity
  rcases le_or_gt e f with hef | hef
  · obtain ⟨k, hk⟩ : ∃ k : ℕ, (n * 2 ^ f : ℚ) = k * 2 ^ e := exists_units (by decide) n hef
    rw [hk] at h ⊢
    rw [mul_lt_mul_iff_left₀ hp] at h
    rw [mul_le_mul_iff_left₀ hp]
    exact_mod_cast h
  · -- with a greater exponent all bits of `m` are in use
    have hfull : 2 ^ 52 ≤ m := hm.2.2.2.resolve_right (by have := hn.2.1; omega)
    have hlow := h.trans_le (hn.le_of_lt hef)
    rw [mul_lt_mul_iff_left₀ hp] at hlow
    have : (2 ^ 52 : ℚ) ≤ m := by exact_mod_cast hfull
    linarith

/-- Below a number there is none for a last bit, or for half of it below a power of two. -/
theorem Canonical.le_previous (hm : Canonical m e) (hn : Canonical n f)
    (h : (n * 2 ^ f : ℚ) < m * 2 ^ e) : (n * 2 ^ f : ℚ) ≤ (m - gapBelow m e) * 2 ^ e := by
  have hp : (0 : ℚ) < 2 ^ e := by positivity
  rcases le_or_gt e f with hef | hef
  · obtain ⟨k, hk⟩ : ∃ k : ℕ, (n * 2 ^ f : ℚ) = k * 2 ^ e := exists_units (by decide) n hef
    rw [hk] at h ⊢
    rw [mul_lt_mul_iff_left₀ hp, Nat.cast_lt] at h
    have hstep : (k + 1 : ℚ) ≤ m := by exact_mod_cast h
    have hgap := gapBelow_le_one m e
    gcongr
    linarith
  · have he : -1074 < e := by
      have := hn.2.1
      omega
    have hfull : 2 ^ 52 ≤ m := hm.2.2.2.resolve_right (by omega)
    have hgap : (2 ^ 52 - 1 / 2 : ℚ) ≤ m - gapBelow m e := by
      unfold gapBelow
      split_ifs with hpower
      · rw [hpower.1]
        norm_num
      · have : 2 ^ 52 + 1 ≤ m := by
          have : m ≠ 2 ^ 52 := fun heq => hpower ⟨heq, he⟩
          omega
        have : (2 ^ 52 + 1 : ℚ) ≤ m := by exact_mod_cast this
        linarith
    exact (hn.le_of_lt hef).trans (mul_le_mul_of_nonneg_right hgap hp.le)

end Neighbours

namespace InReach
variable {m n : ℕ} {e f : ℤ} {x : ℚ}

/-- Half way to the numbers next to it. -/
theorem halfWay (h : InReach m e x) :
    (m - gapBelow m e / 2) * 2 ^ e ≤ x ∧ x ≤ (m + 1 / 2) * 2 ^ e := by
  have hgap : gapBelow m e / 2 = if m = 2 ^ 52 ∧ -1074 < e then 1 / 4 else 1 / 2 := by
    unfold gapBelow
    split_ifs <;> norm_num
  rw [hgap]
  rcases h with ⟨h₁, h₂⟩ | ⟨-, h₁, h₂⟩
  · exact ⟨h₁.le, h₂.le⟩
  · exact ⟨h₁, h₂⟩

/-- No number is nearer than the one in whose reach a rational lies. -/
theorem abs_sub_le (h : InReach m e x) (hm : Canonical m e) (hn : Canonical n f) :
    |(m * 2 ^ e : ℚ) - x| ≤ |(n * 2 ^ f : ℚ) - x| := by
  obtain ⟨hlow, hhigh⟩ := h.halfWay
  have hp : (0 : ℚ) < 2 ^ e := by positivity
  rcases lt_trichotomy (n * 2 ^ f : ℚ) (m * 2 ^ e) with hlt | heq | hgt
  · have hprevious := hm.le_previous hn hlt
    rw [abs_sub_comm _ x, abs_sub_comm _ x, abs_le]
    refine ⟨?_, ?_⟩
    · refine neg_le.mp ((?_ : _ ≤ x - n * 2 ^ f).trans (le_abs_self _))
      linarith
    · exact (by linarith : x - m * 2 ^ e ≤ x - n * 2 ^ f).trans (le_abs_self _)
  · rw [heq]
  · have hnext := hm.next_le hn hgt
    rw [abs_le]
    refine ⟨?_, ?_⟩
    · refine neg_le.mp ((?_ : _ ≤ n * 2 ^ f - x).trans (le_abs_self _))
      linarith
    · exact (by linarith : m * 2 ^ e - x ≤ n * 2 ^ f - x).trans (le_abs_self _)

/-- Rounding does not go below a number that is not above the rational. -/
theorem le_of_le (h : InReach m e x) (hm : Canonical m e) (hn : Canonical n f)
    (hx : (n * 2 ^ f : ℚ) ≤ x) : (n * 2 ^ f : ℚ) ≤ m * 2 ^ e := by
  by_contra hlt
  have hp : (0 : ℚ) < 2 ^ e := by positivity
  have hnext := hm.next_le hn (not_le.mp hlt)
  linarith [h.halfWay.2]

/-- From the least power of two with all bits on, all of them are in use. -/
theorem full (h : InReach m e x) (hm : Canonical m e) (hx : (2 : ℚ) ^ (-1022 : ℤ) ≤ x) :
    2 ^ 52 ≤ m := by
  obtain ⟨-, -, -, hfull | rfl⟩ := hm
  · exact hfull
  by_contra hlt
  have hm : (m : ℚ) ≤ 2 ^ 52 - 1 := by
    have : ((m + 1 : ℕ) : ℚ) ≤ (2 ^ 52 : ℕ) := Nat.cast_le.mpr (by omega)
    push_cast at this
    linarith
  have hp : (0 : ℚ) < 2 ^ (-1074 : ℤ) := by positivity
  have hsplit : (2 : ℚ) ^ (-1022 : ℤ) = 2 ^ 52 * 2 ^ (-1074 : ℤ) := by
    rw [← zpow_natCast, ← zpow_add₀ (by norm_num)]
    rfl
  rw [hsplit] at hx
  have := hx.trans h.halfWay.2
  rw [mul_le_mul_iff_left₀ hp] at this
  linarith

end InReach

namespace Binary64

/-- A finite result has the mantissa as it is, or the power of two that one bit more makes. -/
theorem canonical_of_isFinite_ofRounded {m : ℕ} {e : ℤ} {negative : Bool}
    (h : (ofRounded negative m e).isFinite = true) :
    m = 2 ^ 53 ∧ Canonical (2 ^ 52) (e + 1) ∨ m ≠ 2 ^ 53 ∧ Canonical m e := by
  unfold ofRounded at h
  split_ifs at h with hcarry hc hc
  · exact .inl ⟨hcarry, hc⟩
  · cases h
  · exact .inr ⟨hcarry, hc⟩
  · cases h

/-- Each positive fraction that is not too large is in the reach of a number. -/
theorem exists_inReach_ratio {num den : ℕ} (hnum : 0 < num) (hden : 0 < den)
    (h : (num : ℚ) / den < overflowFrom) : ∃ m e, Canonical m e ∧ InReach m e (num / den) := by
  have hfinite := (isFinite_ofRatio_iff hden false).mpr h
  rw [ofRatio_eq_ofRounded hnum] at hfinite
  have hrounded := nearestEven_scaled num hden (lastBit num den)
  generalize divRoundEven (num * 2 ^ (-lastBit num den).toNat)
    (den * 2 ^ (lastBit num den).toNat) = m at hfinite hrounded
  have hleading := (leadingBit_spec hnum hden).1
  have hlast := lastBit_cases num den
  generalize lastBit num den = k at hfinite hrounded hlast
  have hp : (0 : ℚ) < 2 ^ k := by positivity
  have hbounds := hrounded.bounds
  rw [le_div_iff₀ hp, div_le_iff₀ hp] at hbounds
  rcases canonical_of_isFinite_ofRounded hfinite with ⟨rfl, hc⟩ | ⟨-, hc⟩
  · -- what carries is nearer to the power of two than to the last number below it
    obtain ⟨hlow, hhigh⟩ := hbounds
    have hgap : (1 : ℚ) / 4 ≤ if (2 ^ 52 : ℕ) = 2 ^ 52 ∧ -1074 < k + 1 then 1 / 4 else 1 / 2 := by
      split_ifs <;> norm_num
    push_cast at hlow hhigh
    refine ⟨2 ^ 52, k + 1, hc, .inr ⟨by decide, ?_, ?_⟩⟩
    · rw [zpow_add_one₀ (by norm_num)]
      push_cast
      nlinarith
    · rw [zpow_add_one₀ (by norm_num)]
      push_cast
      nlinarith
  · refine ⟨m, k, hc, ?_⟩
    by_cases hpower : m = 2 ^ 52 ∧ -1074 < k
    · -- the leading bit is in use, so that the fraction is no less than the power of two
      obtain ⟨rfl, hk⟩ := hpower
      rw [show leadingBit num den = 52 + k by omega, zpow_add₀ (by norm_num)] at hleading
      refine .inr ⟨by decide, ?_, hbounds.2⟩
      rw [if_pos ⟨rfl, hk⟩]
      refine le_trans ?_ hleading
      gcongr
      norm_num
    · rw [InReach, if_neg hpower]
      simpa only [NearestEven, lt_div_iff₀ hp, div_lt_iff₀ hp, le_div_iff₀ hp, div_le_iff₀ hp]
        using hrounded

/-! ### The number nearest to a rational -/

/-- The number that a rational rounds to. -/
def ofRat (x : ℚ) : Binary64 :=
  ofRatio (decide (x < 0)) x.num.natAbs x.den

/-- A finite number such that no finite number is nearer to the rational. -/
def IsNearest (v : Binary64) (x : ℚ) : Prop :=
  v.isFinite = true ∧ ∀ w : Binary64, w.isFinite = true → |v.toRat - x| ≤ |w.toRat - x|

/-- Numerator and denominator give the size of a rational. -/
theorem natAbs_num_div_den (x : ℚ) : (x.num.natAbs : ℚ) / x.den = |x| := by
  rw [Nat.cast_natAbs, Int.cast_abs]
  conv_rhs => rw [← Rat.num_div_den x, abs_div, Nat.abs_cast]

/-- Each rational that is not too large is in the reach of a number, but for its sign. -/
theorem exists_inReach {x : ℚ} (hx : x ≠ 0) (h : |x| < overflowFrom) :
    ∃ m e, Canonical m e ∧ InReach m e |x| := by
  rw [← natAbs_num_div_den] at h ⊢
  exact exists_inReach_ratio (Int.natAbs_pos.mpr (Rat.num_ne_zero.mpr hx)) x.den_pos h

/-- In whose reach a rational lies, to that number it rounds. -/
theorem ofRat_of_inReach {x : ℚ} {m : ℕ} {e : ℤ} (hc : Canonical m e) (hx : x ≠ 0)
    (h : InReach m e |x|) : ofRat x = .finite (decide (x < 0)) m e hc := by
  rw [← natAbs_num_div_den] at h
  exact ofRatio_of_inReach hc (Int.natAbs_pos.mpr (Rat.num_ne_zero.mpr hx)) x.den_pos h _

theorem ofRat_zero : ofRat 0 = zero false := rfl

theorem abs_signed (s : Bool) {x : ℚ} (hx : 0 ≤ x) : |(if s then -1 else 1) * x| = x := by
  cases s <;> simp [abs_of_nonneg hx]

theorem abs_toRat_finite {s : Bool} {m : ℕ} {e : ℤ} (hc : Canonical m e) :
    |(finite s m e hc).toRat| = m * 2 ^ e :=
  abs_signed s (by positivity)

/-- A rational rounds to a number nearest to it. -/
theorem isNearest_ofRat {x : ℚ} (h : |x| < overflowFrom) : (ofRat x).IsNearest x := by
  rcases eq_or_ne x 0 with rfl | hx
  · refine ⟨rfl, fun w _ => ?_⟩
    rw [ofRat_zero]
    simp [toRat, zero]
  obtain ⟨m, e, hc, hreach⟩ := exists_inReach hx h
  rw [ofRat_of_inReach hc hx hreach]
  refine ⟨rfl, ?_⟩
  rintro (_ | _ | ⟨t, n, f, hn⟩) hw
  · cases hw
  · cases hw
  -- the number has the sign of the rational, so that only the sizes are apart
  have hsign : (finite (decide (x < 0)) m e hc).toRat - x =
      (if x < 0 then -1 else 1) * (m * 2 ^ e - |x|) := by
    simp only [toRat, decide_eq_true_eq]
    split_ifs with hneg
    · rw [abs_of_neg hneg]
      ring
    · rw [abs_of_nonneg (not_lt.mp hneg)]
      ring
  calc |(finite (decide (x < 0)) m e hc).toRat - x| = |(m * 2 ^ e - |x|)| := by
        rw [hsign, abs_mul]
        split_ifs <;> simp
    _ ≤ |(n * 2 ^ f - |x|)| := hreach.abs_sub_le hc hn
    _ = |(|(finite t n f hn).toRat| - |x|)| := by rw [abs_toRat_finite]
    _ ≤ |(finite t n f hn).toRat - x| := abs_abs_sub_abs_le _ _

end Binary64

end Abacus

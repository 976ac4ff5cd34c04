import Abacus.Display
import Abacus.Proofs.Binary64.Order
import Abacus.Proofs.Decimal.Text

/-!
# Abacus — Display — Numbers in full

A zero and a number from `1e-6` to below `1e21` is shown as a numeral that is read as this number
(`exists_numeral_of_isShownInFull`), where the sign of a zero is lost.  Every other number is shown
with an exponent (`display_of_not_isShownInFull`).
-/

namespace Abacus

/-- Bringing into range is taking the nearest number of those from none to twelve. -/
theorem Precision.places_clamp (i : ℤ) : ((clamp i).places : ℤ) = max 0 (min 12 i) := by
  simp only [clamp]
  omega

/-- An integer is written as its size behind its sign. -/
theorem Decimal.intDigits_of_pos {n : ℕ} (h : 0 < n) (negative : Bool) :
    intDigits (if negative then -(n : ℤ) else n) = withSign negative (digitsOf n) := by
  cases negative with
  | false => simp [intDigits, withSign]
  | true => simp [intDigits, withSign, h]

namespace Binary64

/-- Whether a finite number is shown without an exponent. -/
def IsShownInFull (v : Binary64) : Prop :=
  v.isZero = true ∨ v.abs.lt fullFrom = false ∧ v.abs.lt fullBelow = true

instance (v : Binary64) : Decidable v.IsShownInFull :=
  inferInstanceAs (Decidable (_ ∨ _))

section Bounds

/-- The least size that is shown in full, as it is kept. -/
theorem fullFrom_eq : fullFrom = .finite false 4722366482869645 (-72) (by decide) := by
  decide +kernel

theorem fullBelow_eq : fullBelow = .finite false 7629394531250000 17 (by decide) := by
  decide +kernel

/-- The size below which whole numbers are exact to the unit, as it is kept. -/
theorem exactBelow_eq : exactBelow = .finite false (2 ^ 52) 1 (by decide) := by
  decide +kernel

variable {s : Bool} {m : ℕ} {e : ℤ} {hc : Canonical m e}

/-- A whole number that is shown to the unit is shown without an exponent. -/
theorem isShownInFull_of_isIntegral (h : (finite s m e hc).isIntegral = true)
    (hexact : (finite s m e hc).abs.lt exactBelow = true) : (finite s m e hc).IsShownInFull := by
  rcases Nat.eq_zero_or_pos m with hzero | hm
  · exact .inl (isZero_iff.mpr hzero)
  have hone := one_le_of_isIntegral h hm
  refine .inr ⟨?_, ?_⟩
  · rw [Bool.eq_false_iff, fullFrom_eq, abs, Ne, lt_iff, not_lt]
    simp only [toRat, Bool.false_eq_true, if_false, one_mul]
    refine le_trans ?_ hone
    norm_num
  · rw [exactBelow_eq, abs, lt_iff] at hexact
    rw [fullBelow_eq, abs, lt_iff]
    refine hexact.trans ?_
    simp only [toRat, Bool.false_eq_true, if_false, one_mul]
    norm_num

end Bounds

theorem isFinite_of_isZero {v : Binary64} (h : v.isZero = true) : v.isFinite = true := by
  cases v with
  | nan | inf => cases h
  | finite => rfl

section Finite
variable {s : Bool} {m : ℕ} {e : ℤ} {hc : Canonical m e}

theorem lt_exactBelow_of_isZero (h : (finite s m e hc).isZero = true) :
    (finite s m e hc).abs.lt exactBelow = true := by
  rw [exactBelow_eq, abs, lt_iff]
  simp [toRat, isZero_iff.mp h]

/-- Zero is shown without a sign. -/
theorem display_of_isZero (h : (finite s m e hc).isZero = true) :
    (finite s m e hc).display = "0" := by
  have htruncated : (finite s m e hc).truncate? = some 0 := by
    simp [truncate?, isZero_iff.mp h]
  rw [display, fullText]
  simp only [isIntegral_of_isZero h, lt_exactBelow_of_isZero h, htruncated, Bool.and_self, if_true]
  rfl

/-- A whole number to the unit. -/
theorem display_of_isIntegral (hm : 0 < m) (h : (finite s m e hc).isIntegral = true)
    (hexact : (finite s m e hc).abs.lt exactBelow = true) :
    ∃ n : ℕ, (n : ℚ) = m * 2 ^ e ∧
      (finite s m e hc).display = String.ofList (withSign s (Decimal.digitsOf n)) := by
  have hmagnitude := magnitude_of_isIntegral h
  have hone := one_le_of_isIntegral h hm
  refine ⟨_, hmagnitude, ?_⟩
  have hpos : 0 < m * 2 ^ e.toNat / 2 ^ (-e).toNat := by
    rw [← hmagnitude] at hone
    exact_mod_cast hone
  rw [display, fullText]
  simp only [h, hexact, Bool.and_self, if_true, truncate?, Option.getD_some,
    Decimal.intDigits_of_pos hpos]

/-- The shortest digits, with an exponent or without one. -/
theorem display_of_shortest (hm : 0 < m)
    (h : ((finite s m e hc).isIntegral && (finite s m e hc).abs.lt exactBelow) = false) :
    (finite s m e hc).display = String.ofList (withSign s
      (if (finite s m e hc).IsShownInFull then (Decimal.shortest m e).positional
        else (Decimal.shortest m e).scientific 1)) := by
  have hzero : (finite s m e hc).isZero = false := by
    rw [Bool.eq_false_iff, Ne, isZero_iff]
    omega
  rw [display, fullText]
  simp only [h, Bool.false_eq_true, if_false, Decimal.shortestOf, if_neg (Nat.ne_of_gt hm),
    IsShownInFull, hzero, false_or, Bool.and_eq_true, Bool.not_eq_true']

end Finite

/-- What is shown without an exponent is a numeral that is read as the number; of a zero the sign is
lost. -/
theorem exists_numeral_of_isShownInFull {v : Binary64} (hfinite : v.isFinite = true)
    (h : v.IsShownInFull) :
    ∃ negative ds d, v.display = String.ofList (withSign negative ds) ∧
      Decimal.fixed? ds = some d ∧
      (Decimal.nearest negative d = v ∨
        (Decimal.nearest negative d).isZero = true ∧ v.isZero = true) := by
  obtain _ | _ | ⟨s, m, e, hc⟩ := v
  · cases hfinite
  · cases hfinite
  -- a zero has no shortest digits, and `0` is read as the positive one
  rcases Nat.eq_zero_or_pos m with hm | hm
  · have hzero : (finite s m e hc).isZero = true := isZero_iff.mpr hm
    exact ⟨false, ['0'], ⟨0, 0⟩, display_of_isZero hzero, rfl, .inr ⟨rfl, hzero⟩⟩
  cases hint : (finite s m e hc).isIntegral && (finite s m e hc).abs.lt exactBelow with
  | true =>
      rw [Bool.and_eq_true] at hint
      obtain ⟨n, hn, hdisplay⟩ := display_of_isIntegral hm hint.1 hint.2
      refine ⟨s, _, _, hdisplay, Decimal.fixed?_of_digits
        (fun _ => Decimal.isPlainDigit_of_mem_digitsOf) (Decimal.digitsOf_ne_nil n), .inl ?_⟩
      refine ofDecimal_of_inReach hc hm ?_ s
      rw [Decimal.ofDigits_digitsOf, hn, zpow_zero, mul_one]
      exact InReach.self m e
  | false =>
      obtain ⟨d, hd, hvalue⟩ := Decimal.fixed?_positional (Decimal.shortest m e)
      refine ⟨s, _, d, display_of_shortest hm hint, ?_, .inl ?_⟩
      · rw [if_pos h, hd]
      · exact Decimal.nearest_of_toRat_eq hc hm hvalue s

/-- Whatever is not shown in full is shown with an exponent, in the shortest digits. -/
theorem display_of_not_isShownInFull {s : Bool} {m : ℕ} {e : ℤ} {hc : Canonical m e}
    (h : ¬ (finite s m e hc).IsShownInFull) : 0 < m ∧ (finite s m e hc).display =
      String.ofList (withSign s ((Decimal.shortest m e).scientific 1)) := by
  have hm : 0 < m := by
    rw [Nat.pos_iff_ne_zero]
    exact fun hzero => h (.inl (isZero_iff.mpr hzero))
  have hint : ((finite s m e hc).isIntegral && (finite s m e hc).abs.lt exactBelow) = false := by
    rw [Bool.eq_false_iff, Ne, Bool.and_eq_true]
    exact fun hboth => h (isShownInFull_of_isIntegral hboth.1 hboth.2)
  refine ⟨hm, ?_⟩
  rw [display_of_shortest hm hint, if_neg h]

end Binary64

end Abacus

import Abacus.Proofs.Display
import Abacus.Proofs.Expression.Numeral

/-!
# Abacus — Display — Shown numbers as expressions

What the calculator makes of a number that it has shown: one without an exponent is an expression of
this number (`verdict_display`), and one with an exponent is none (`verdict_display_of_exponent`).
-/

namespace Abacus.Binary64
variable {v : Binary64}

/-- A number that is shown without an exponent can be typed as it is shown. -/
theorem verdict_display (hfinite : v.isFinite = true) (h : v.IsShownInFull) :
    ∃ w, verdict .arithmetic v.display = .ok (.ok w) ∧
      (w = v ∨ w.isZero = true ∧ v.isZero = true) := by
  obtain ⟨negative, ds, d, hdisplay, hd, hvalue⟩ := exists_numeral_of_isShownInFull hfinite h
  refine ⟨_, ?_, hvalue⟩
  rw [hdisplay]
  refine verdict_of_numeral hd ?_
  rcases hvalue with hvalue | ⟨hzero, -⟩
  · rw [hvalue, hfinite]
  · exact isFinite_of_isZero hzero

/-- A number that is shown with an exponent cannot. -/
theorem verdict_display_of_exponent (hfinite : v.isFinite = true) (h : ¬ v.IsShownInFull) :
    verdict .arithmetic v.display = .ok (.error .invalidCharacter) := by
  obtain _ | _ | ⟨s, m, e, hc⟩ := v
  · cases hfinite
  · cases hfinite
  obtain ⟨-, hdisplay⟩ := display_of_not_isShownInFull h
  obtain ⟨ds, d', rest, hsplit, hd', hlt, hrest⟩ := (Decimal.shortest m e).exists_scientific 1
  rw [hdisplay, hsplit]
  refine verdict_of_exponent hd' ((isFinite_ofDecimal_iff ..).mpr ?_) ?_
  · calc d'.toRat < 10 := hlt
      _ < 2 ^ (4 : ℤ) := by norm_num
      _ ≤ 2 ^ (1023 : ℤ) := zpow_le_zpow_right₀ (by norm_num) (by norm_num)
      _ < overflowFrom := lt_overflowFrom
  · intro c hc
    exact (hrest c hc).elim isVerbatim_of_isPlainDigit isVerbatim_of_isSign

end Abacus.Binary64

import Abacus.Proofs.Display.Typed
import Abacus.Proofs.Session.Calls
import Abacus.Proofs.Session.Opening

/-!
# Abacus — Session — Going on after percent

Percent leaves the text of a number in the buffer, and the next calculation reads this text.  It
finds the number when the text is one without an exponent, and stops at the letter of the exponent
otherwise (`calculate_after_percent`).
-/

namespace Abacus

namespace Binary64
variable {v : Binary64}

/-- A hundredth of a finite number is finite. -/
theorem isFinite_div_hundred (hfinite : v.isFinite = true) :
    (v.div (.ofInt 100)).isFinite = true := by
  have hhundred : ofInt 100 = .finite false 7036874417766400 (-46) (by decide) := by
    decide +kernel
  obtain _ | _ | ⟨s, m, e, hc⟩ := v
  · cases hfinite
  · cases hfinite
  rw [hhundred, div, if_neg (by decide)]
  refine isFinite_ofRatio (by positivity) ?_ _
  have hm : (m : ℚ) < 2 ^ (53 : ℤ) := by exact_mod_cast hc.1
  have hratio : ((m * 2 ^ (e - -46).toNat : ℕ) : ℚ) / (7036874417766400 * 2 ^ (-46 - e).toNat : ℕ) =
      m * 2 ^ (e - -46) / 7036874417766400 := by
    have hsplit := zpow_toNat 2 (by decide) (e - -46)
    rw [show -(e - -46) = -46 - e by ring] at hsplit
    push_cast at hsplit ⊢
    rw [hsplit, ← mul_assoc, mul_div_mul_right _ _ (by positivity)]
  rw [hratio, div_lt_iff₀ (by norm_num)]
  have hle : 53 + (e - -46) ≤ 1023 + 52 := by
    have := hc.2.2.1
    omega
  calc (m : ℚ) * 2 ^ (e - -46) < 2 ^ (53 : ℤ) * 2 ^ (e - -46) := by gcongr
    _ = 2 ^ (53 + (e - -46)) := by rw [zpow_add₀ (by norm_num)]
    _ ≤ 2 ^ (1023 + 52 : ℤ) := zpow_le_zpow_right₀ (by norm_num) hle
    _ = 2 ^ (1023 : ℤ) * 2 ^ (52 : ℤ) := zpow_add₀ (by norm_num) ..
    _ ≤ 2 ^ (1023 : ℤ) * 7036874417766400 := by
        refine mul_le_mul_of_nonneg_left ?_ (zpow_nonneg (by norm_num) _)
        norm_num

end Binary64

namespace Session
variable {s s' : Session} {d e : Desk} {o : Outcome} {v : Binary64}

/-- What percent answers with is a finite number, and the buffer is this number in full. -/
theorem buffer_after_percent (h : s.percent.runAt d = (.ok (o, s'), e)) (hv : o.result = .ok v) :
    v.isFinite = true ∧ s'.buffer = v.display := by
  obtain ⟨c, hc⟩ := exists_calculate s.buffer
  rw [runAt_percent hc] at h
  obtain ⟨h, -⟩ := Prod.mk.inj h
  have hscaled := Except.ok.inj h
  cases hresult : c.outcome.result with
  | error k =>
      simp only [scaled, hresult] at hscaled
      cases hscaled
      rw [hresult] at hv
      cases hv
  | ok x =>
      simp only [scaled, hresult] at hscaled
      cases hscaled
      cases hv
      exact ⟨Binary64.isFinite_div_hundred (isFinite_of_calculate hc hresult), rfl⟩

/-- Percent of a buffer that has a value. -/
theorem runAt_percent_of_verdict {x : Binary64} (h : verdict .arithmetic s.buffer = .ok (.ok x))
    (d : Desk) :
    ∃ expression e, s.percent.runAt d = (.ok (⟨expression, .ok (x.div (.ofInt 100))⟩,
      { s with buffer := (x.div (.ofInt 100)).display }), e) := by
  obtain ⟨c, hc⟩ := exists_calculate s.buffer
  rw [verdict, hc] at h
  have hresult : c.outcome.result = .ok x := Except.ok.inj h
  exact ⟨_, _, (runAt_percent hc).trans (by rw [scaled, hresult])⟩

end Session

/-- **What can be done after percent.**  Percent leaves a finite number and its text.  When the text
has no exponent, the next calculation accepts it with this number, and otherwise it rejects it for a
character that is in no expression. -/
theorem calculate_after_percent {s s' : Session} {d e : Desk} {o : Outcome} {v : Binary64}
    (h : s.percent.runAt d = (.ok (o, s'), e)) (hv : o.result = .ok v) :
    v.isFinite = true ∧
    (v.IsShownInFull → ∃ w, verdict .arithmetic s'.buffer = .ok (.ok w) ∧
      (w = v ∨ w.isZero = true ∧ v.isZero = true)) ∧
    (¬ v.IsShownInFull → verdict .arithmetic s'.buffer = .ok (.error .invalidCharacter)) := by
  obtain ⟨hfinite, hbuffer⟩ := Session.buffer_after_percent h hv
  rw [hbuffer]
  exact ⟨hfinite, Binary64.verdict_display hfinite, Binary64.verdict_display_of_exponent hfinite⟩

/-- After `50` the buffer is `0.5`. -/
theorem calculate_after_percent_of_fifty :
    ∃ s d o s' e v w, (Session.openAt none).runAt {} = (.ok s, d) ∧
      ((s.append "5").append "0").percent.runAt d = (.ok (o, s'), e) ∧ o.result = .ok v ∧
      v.IsShownInFull ∧ verdict .arithmetic s'.buffer = .ok (.ok w) ∧
      (w = v ∨ w.isZero = true ∧ v.isZero = true) := by
  have hopen := Session.runAt_openAt_none {}
  generalize hs : (⟨Session.emptyBuffer, _, _⟩ : Session) = s at hopen
  have hbuffer : ((s.append "5").append "0").buffer = "50" := by
    subst hs
    decide +kernel
  have hvalue : verdict .arithmetic ((s.append "5").append "0").buffer =
      .ok (.ok (.ofInt 50)) := by
    rw [hbuffer]
    decide +kernel
  have hshown : ((Binary64.ofInt 50).div (.ofInt 100)).IsShownInFull := by decide +kernel
  obtain ⟨expression, e, hpercent⟩ := Session.runAt_percent_of_verdict hvalue
    (({} : Desk).noted [.info])
  obtain ⟨-, hfull, -⟩ := calculate_after_percent hpercent rfl
  obtain ⟨w, hw, hwv⟩ := hfull hshown
  exact ⟨s, _, _, _, e, _, w, hopen, hpercent, rfl, hshown, hw, hwv⟩

/-- A hundredth of `0.00005` is shown with an exponent, and no calculation takes it. -/
theorem calculate_after_percent_of_small :
    ∃ s d o s' e v, (Session.openAt none).runAt {} = (.ok s, d) ∧
      (s.append ".00005").percent.runAt d = (.ok (o, s'), e) ∧ o.result = .ok v ∧
      s'.buffer = "5e-7" ∧ verdict .arithmetic s'.buffer = .ok (.error .invalidCharacter) := by
  have hopen := Session.runAt_openAt_none {}
  generalize hs : (⟨Session.emptyBuffer, _, _⟩ : Session) = s at hopen
  have hbuffer : (s.append ".00005").buffer = "0.00005" := by
    subst hs
    decide +kernel
  have hvalue : verdict .arithmetic (s.append ".00005").buffer =
      .ok (.ok (.ofDecimal false 5 (-5))) := by
    rw [hbuffer]
    decide +kernel
  have hdisplay : ((Binary64.ofDecimal false 5 (-5)).div (.ofInt 100)).display = "5e-7" := by
    decide +kernel
  obtain ⟨expression, e, hpercent⟩ := Session.runAt_percent_of_verdict hvalue
    (({} : Desk).noted [.info])
  have hrejected : verdict .arithmetic "5e-7" = .ok (.error .invalidCharacter) := by
    decide +kernel
  exact ⟨s, _, _, _, e, _, hopen, hpercent, rfl, hdisplay,
    (congrArg (verdict .arithmetic) hdisplay).trans hrejected⟩

end Abacus

import Abacus.Session
import Abacus.Proofs.Expression.Totality
import Abacus.Proofs.Records

/-!
# Abacus — Session — What each call gives

Every operation of a session as its result and the desk it leaves.  Nothing that a session answers
depends on the files: percent reads the buffer (`runAt_percent`), evaluation the text, the clock and
the last identifier (`runAt_evaluate`), a change of preferences the preferences
(`KeptPreferences.runAt_change`).  The files come in where the outcome has been settled, in
`Desk.afterSave`.
-/

namespace Abacus

/-- With the operators of arithmetic every text has a calculation. -/
theorem exists_calculate (raw : String) : ∃ c, calculate .arithmetic raw = .ok c := by
  rcases valueOf_of_answers OperatorTable.answers_arithmetic (canonicalText raw) with
    ⟨f, hf⟩ | ⟨v, hv, -⟩
  · exact ⟨_, by rw [calculate, hf]⟩
  · exact ⟨_, by rw [calculate, hv]⟩

/-- A calculation gives finite numbers only. -/
theorem isFinite_of_calculate {raw : String} {c : Calculation} {v : Binary64}
    (h : calculate .arithmetic raw = .ok c) (hv : c.outcome.result = .ok v) :
    v.isFinite = true := by
  rcases valueOf_of_answers OperatorTable.answers_arithmetic (canonicalText raw) with
    ⟨f, hf⟩ | ⟨w, hw, hfinite⟩
  · rw [calculate, hf] at h
    cases h
    cases hv
  · rw [calculate, hw] at h
    cases h
    cases hv
    exact hfinite

/-- The notices that a calculation leaves. -/
def Calculation.notices (c : Calculation) : List Level :=
  if c.warning?.isSome then [.warning] else []

/-- A calculation notes no errors, whatever its outcome. -/
theorem Calculation.error_not_mem_notices (c : Calculation) : .error ∉ c.notices := by
  unfold notices
  split <;> simp

/-- The desk after the clock has been read and an identifier given out. -/
def Desk.stamped (d : Desk) : Desk :=
  { d with clock := d.clock.next, lastId := Identifier.next d.lastId d.clock.now }

section Stamped
variable (d : Desk)

@[simp] theorem Desk.files_stamped : d.stamped.files = d.files := rfl

@[simp] theorem Desk.notices_stamped : d.stamped.notices = d.notices := rfl

@[simp] theorem Desk.runAt_stamp :
    Desk.stamp.runAt d = ((Identifier.next d.lastId d.clock.now, d.clock.now), d.stamped) := rfl

end Stamped

/-! ### Preferences and history -/

theorem KeptPreferences.runAt_keep (k : KeptPreferences) (p : Preferences) (d : Desk) :
    (k.keep p).runAt d = ({ k with preferences := p }, d.afterSave k.store key p.toJson) := by
  obtain ⟨q, store⟩ := k
  cases store <;> rfl

theorem KeptPreferences.runAt_change (k : KeptPreferences)
    (next : Except PreferencesFailure Preferences) (d : Desk) :
    (k.change next).runAt d =
      match next with
      | .ok p    => (.ok { k with preferences := p }, d.afterSave k.store key p.toJson)
      | .error f => (.error f, d) := by
  cases next with
  | ok p =>
      rw [change]
      exact (Attempt.runAt_lift _ d).trans (by rw [runAt_keep])
  | error f => rfl

/-- Recording adds an entry and saves the history once. -/
theorem KeptHistory.runAt_record (k : KeptHistory) (e : Entry) (d : Desk) :
    (k.record e).runAt d =
      ({ k with history := k.history.push e },
        d.afterSave k.store key (k.history.push e).toJson) := by
  obtain ⟨h, store⟩ := k
  cases store <;> rfl

/-! ### Calculating -/

namespace Session
variable {s : Session} {d : Desk} {c : Calculation}

/-- Calculating leaves notices and nothing else. -/
theorem runAt_calculate {raw : String} (h : Abacus.calculate .arithmetic raw = .ok c) :
    (calculate raw).runAt d = (.ok c, d.noted c.notices) := by
  simp only [calculate, h, Calculation.notices]
  by_cases hwarning : c.warning?.isSome = true
  · simp only [hwarning, if_true]
    rfl
  · simp [hwarning]

/-- What percent makes of an outcome: a hundredth of its value goes into the buffer. -/
def scaled (s : Session) (o : Outcome) : Outcome × Session :=
  match o.result with
  | .error _ => (o, s)
  | .ok v    => (⟨o.expression, .ok (v.div (.ofInt 100))⟩,
      { s with buffer := (v.div (.ofInt 100)).display })

/-- A percent is one calculation of the buffer, which changes by its outcome. -/
theorem runAt_percent (h : Abacus.calculate .arithmetic s.buffer = .ok c) :
    s.percent.runAt d = (.ok (s.scaled c.outcome), d.noted c.notices) := by
  rw [percent, Attempt.runAt_bind_of_ok (runAt_calculate h), scaled]
  obtain ⟨expression, result⟩ := c.outcome
  cases result <;> rfl

/-- The entry that an evaluation leaves in the history. -/
def entryOf (d : Desk) (source : String) (o : Outcome) : Entry :=
  .stamped (Identifier.next d.lastId d.clock.now) d.clock.now source (recorded o)

/-- Evaluating records one entry, under the next identifier, and saves the history. -/
theorem runAt_evaluate {source : String} (h : Abacus.calculate .arithmetic source = .ok c) :
    (s.evaluate source).runAt d =
      let history := s.history.history.push (entryOf d source c.outcome)
      (.ok (c.outcome, s.display c.outcome,
          { s with history := { s.history with history := history } }),
        (d.noted c.notices).stamped.afterSave s.history.store KeptHistory.key history.toJson) := by
  rw [evaluate, Attempt.runAt_bind_of_ok (runAt_calculate h),
    Attempt.runAt_bind_of_ok (Attempt.runAt_lift _ _), Desk.runAt_stamp]
  exact (Attempt.runAt_bind_of_ok (Attempt.runAt_lift _ _)).trans (by
    rw [KeptHistory.runAt_record]
    rfl)

/-- The notices that a calculation leaves are no errors. -/
theorem errors_noted_notices (d : Desk) (c : Calculation) :
    (d.noted c.notices).errors = d.errors := by
  show (d.notices ++ c.notices).count .error = d.notices.count .error
  rw [List.count_append, List.count_eq_zero_of_not_mem c.error_not_mem_notices, Nat.add_zero]

/-- An evaluation always has an outcome, and takes no noted error back. -/
theorem exists_evaluate (s : Session) (source : String) (d : Desk) :
    ∃ o text s₁ d₁, (s.evaluate source).runAt d = (.ok (o, text, s₁), d₁) ∧
      d.errors ≤ d₁.errors := by
  obtain ⟨c, hc⟩ := exists_calculate source
  refine ⟨_, _, _, _, runAt_evaluate hc, le_of_eq_of_le ?_ (Desk.errors_le_afterSave ..)⟩
  exact (errors_noted_notices d c).symm

end Session

end Abacus

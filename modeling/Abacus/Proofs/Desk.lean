import Abacus.Desk

/-!
# Abacus — Work at the desk

What a piece of work gives and how it leaves the desk, for each way of putting work together.
-/

namespace Abacus
variable {ε ε' α β : Type}

/-- What work gives at a desk, and the desk after it. -/
def Work.runAt (x : Work α) (d : Desk) : α × Desk :=
  StateT.run x d

/-- What an attempt gives at a desk, and the desk after it. -/
def Attempt.runAt (x : Attempt ε α) (d : Desk) : Except ε α × Desk :=
  StateT.run (ExceptT.run x) d

namespace Work

@[simp] theorem runAt_pure (a : α) (d : Desk) : (pure a : Work α).runAt d = (a, d) := rfl

@[simp] theorem runAt_get (d : Desk) : (get : Work Desk).runAt d = (d, d) := rfl

@[simp] theorem runAt_set (e d : Desk) : (set e : Work Unit).runAt d = ((), e) := rfl

@[simp] theorem runAt_modify (f : Desk → Desk) (d : Desk) :
    (modify f : Work Unit).runAt d = ((), f d) := rfl

@[simp] theorem runAt_bind (x : Work α) (f : α → Work β) (d : Desk) :
    Work.runAt (x >>= f) d = (f (x.runAt d).1).runAt (x.runAt d).2 := rfl

@[simp] theorem runAt_map (f : α → β) (x : Work α) (d : Desk) :
    Work.runAt (f <$> x) d = (f (x.runAt d).1, (x.runAt d).2) := rfl

end Work

namespace Attempt

@[simp] theorem runAt_pure (a : α) (d : Desk) : (pure a : Attempt ε α).runAt d = (.ok a, d) := rfl

@[simp] theorem runAt_throw (e : ε) (d : Desk) :
    (throw e : Attempt ε α).runAt d = (.error e, d) := rfl

@[simp] theorem runAt_get (d : Desk) : (get : Attempt ε Desk).runAt d = (.ok d, d) := rfl

@[simp] theorem runAt_of (r : Except ε α) (d : Desk) : (Attempt.of r).runAt d = (r, d) := rfl

@[simp] theorem runAt_lift (x : Work α) (d : Desk) :
    (liftM x : Attempt ε α).runAt d = (.ok (x.runAt d).1, (x.runAt d).2) := rfl

/-- What follows an attempt is done at the desk it leaves, unless it has failed. -/
theorem runAt_bind (x : Attempt ε α) (f : α → Attempt ε β) (d : Desk) :
    Attempt.runAt (x >>= f) d = match x.runAt d with
      | (.ok a, d')    => (f a).runAt d'
      | (.error e, d') => (.error e, d') := by
  show StateT.run (ExceptT.run (x >>= f)) d = match StateT.run (ExceptT.run x) d with
    | (.ok a, d')    => (f a).runAt d'
    | (.error e, d') => (.error e, d')
  rw [ExceptT.run_bind, StateT.run_bind]
  cases h : StateT.run (ExceptT.run x) d with
  | mk r d' => cases r <;> rfl

theorem runAt_bind_of_ok {x : Attempt ε α} {f : α → Attempt ε β} {d d' : Desk} {a : α}
    (h : x.runAt d = (.ok a, d')) : Attempt.runAt (x >>= f) d = (f a).runAt d' := by
  rw [runAt_bind, h]

theorem runAt_bind_of_error {x : Attempt ε α} {f : α → Attempt ε β} {d d' : Desk} {e : ε}
    (h : x.runAt d = (.error e, d')) : Attempt.runAt (x >>= f) d = (.error e, d') := by
  rw [runAt_bind, h]

/-- Naming a failure otherwise does nothing at the desk. -/
theorem runAt_adapt (f : ε → ε') (x : Attempt ε α) (d : Desk) :
    Attempt.runAt (ExceptT.adapt f x) d = ((x.runAt d).1.mapError f, (x.runAt d).2) := rfl

end Attempt

namespace Desk

/-- The desk with more notices and nothing else changed. -/
def noted (d : Desk) (levels : List Level) : Desk :=
  { d with notices := d.notices ++ levels }

variable (d : Desk) (levels : List Level)

@[simp] theorem files_noted : (d.noted levels).files = d.files := rfl

@[simp] theorem refusals_noted : (d.noted levels).refusals = d.refusals := rfl

@[simp] theorem clock_noted : (d.noted levels).clock = d.clock := rfl

@[simp] theorem lastId_noted : (d.noted levels).lastId = d.lastId := rfl

@[simp] theorem noted_nil : d.noted [] = d := by simp [noted]

@[simp] theorem noted_noted (more : List Level) :
    (d.noted levels).noted more = d.noted (levels ++ more) := by simp [noted]

@[simp] theorem runAt_note (level : Level) :
    (Desk.note level).runAt d = ((), d.noted [level]) := rfl

end Desk

end Abacus

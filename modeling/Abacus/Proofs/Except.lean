import Mathlib.Data.List.Forall2

/-!
# Abacus — Fallible computations

How a chain of steps that may fail is taken apart: it succeeds when each of its steps does.
-/

namespace Except
variable {ε ε' α β : Type}

@[simp] theorem ok_bind (a : α) (f : α → Except ε β) : (Except.ok a >>= f) = f a := rfl

@[simp] theorem error_bind (e : ε) (f : α → Except ε β) :
    ((Except.error e : Except ε α) >>= f) = .error e := rfl

theorem bind_eq_ok_iff {x : Except ε α} {f : α → Except ε β} {b : β} :
    x >>= f = .ok b ↔ ∃ a, x = .ok a ∧ f a = .ok b := by
  cases x <;> simp

theorem bind_eq_error_iff {x : Except ε α} {f : α → Except ε β} {e : ε} :
    x >>= f = .error e ↔ x = .error e ∨ ∃ a, x = .ok a ∧ f a = .error e := by
  cases x <;> simp

theorem map_eq_ok_iff {f : α → β} {x : Except ε α} {b : β} :
    f <$> x = .ok b ↔ ∃ a, x = .ok a ∧ f a = b := by
  cases x <;> simp

theorem map_eq_error_iff {f : α → β} {x : Except ε α} {e : ε} :
    f <$> x = .error e ↔ x = .error e := by
  cases x <;> simp

@[simp] theorem mapError_ok (f : ε → ε') (a : α) :
    (Except.ok a : Except ε α).mapError f = .ok a := rfl

@[simp] theorem mapError_error (f : ε → ε') (e : ε) :
    (Except.error e : Except ε α).mapError f = .error (f e) := rfl

theorem mapError_eq_ok_iff {f : ε → ε'} {x : Except ε α} {a : α} :
    x.mapError f = .ok a ↔ x = .ok a := by
  cases x <;> simp

theorem mapError_eq_error_iff {f : ε → ε'} {x : Except ε α} {e' : ε'} :
    x.mapError f = .error e' ↔ ∃ e, x = .error e ∧ f e = e' := by
  cases x <;> simp

/-- A step for each of a list's elements succeeds when each of the steps does. -/
theorem mapM_eq_ok_iff {f : α → Except ε β} {as : List α} {bs : List β} :
    as.mapM f = .ok bs ↔ List.Forall₂ (fun a b => f a = .ok b) as bs := by
  induction as generalizing bs with
  | nil => simp [pure, Except.pure, eq_comm]
  | cons a as ih =>
      rw [List.mapM_cons, List.forall₂_cons_left_iff]
      simp only [bind_pure_comp, bind_eq_ok_iff, map_eq_ok_iff, ih]
      constructor
      · rintro ⟨b, hb, bs', hbs, rfl⟩
        exact ⟨b, bs', hb, hbs, rfl⟩
      · rintro ⟨b, bs', hb, hbs, rfl⟩
        exact ⟨b, hb, bs', hbs, rfl⟩

/-- A chain of steps fails where one of them does, after those before it have succeeded. -/
theorem foldlM_eq_error_iff {f : β → α → Except ε β} {b : β} {as : List α} {e : ε} :
    as.foldlM f b = .error e ↔ ∃ front a back c,
      as = front ++ a :: back ∧ front.foldlM f b = .ok c ∧ f c a = .error e := by
  induction as generalizing b with
  | nil => simp [pure, Except.pure]
  | cons a as ih =>
      rw [List.foldlM_cons]
      constructor
      · intro h
        cases hstep : f b a with
        | error e' =>
            rw [hstep] at h
            cases h
            exact ⟨[], a, as, b, rfl, rfl, hstep⟩
        | ok next =>
            rw [hstep, ok_bind, ih] at h
            obtain ⟨front, x, back, c, rfl, hfront, hx⟩ := h
            refine ⟨a :: front, x, back, c, rfl, ?_, hx⟩
            rw [List.foldlM_cons, hstep, ok_bind, hfront]
      · rintro ⟨front, x, back, c, has, hfront, hx⟩
        cases front with
        | nil =>
            obtain ⟨rfl, rfl⟩ := List.cons.inj has
            cases hfront
            rw [hx]
            rfl
        | cons y front =>
            obtain ⟨rfl, rfl⟩ := List.cons.inj has
            rw [List.foldlM_cons, bind_eq_ok_iff] at hfront
            obtain ⟨next, hstep, hfront⟩ := hfront
            rw [hstep, ok_bind, ih]
            exact ⟨front, x, back, c, rfl, hfront, hx⟩

/-- Failures of two steps are renamed together or one by one. -/
theorem mapError_bind (f : ε → ε') (x : Except ε α) (g : α → Except ε β) :
    (x >>= g).mapError f = x.mapError f >>= fun a => (g a).mapError f := by
  cases x <;> rfl

/-- Two results that are errors of one kind, or values that stand in a relation. -/
inductive Alike (r : α → β → Prop) : Except ε α → Except ε β → Prop where
  | error (e : ε) : Alike r (.error e) (.error e)
  | ok {a : α} {b : β} (h : r a b) : Alike r (.ok a) (.ok b)

namespace Alike
variable {γ δ : Type} {r : α → β → Prop} {s : γ → δ → Prop}

theorem refl {r : α → α → Prop} (h : ∀ a, r a a) (x : Except ε α) : Alike r x x := by
  cases x with
  | error e => exact .error e
  | ok a => exact .ok (h a)

/-- Renaming the failure keeps results alike. -/
theorem mapError {x : Except ε α} {y : Except ε β} (h : Alike r x y) (f : ε → ε') :
    Alike r (x.mapError f) (y.mapError f) := by
  cases h with
  | error e => exact .error (f e)
  | ok h => exact .ok h

/-- Steps that are alike from values in the relation go on alike. -/
theorem bind {x : Except ε α} {y : Except ε β} {f : α → Except ε γ} {g : β → Except ε δ}
    (h : Alike r x y) (hstep : ∀ a b, r a b → Alike s (f a) (g b)) :
    Alike s (x >>= f) (y >>= g) := by
  cases h with
  | error e => exact .error e
  | ok h => exact hstep _ _ h

/-- So do chains of such steps. -/
theorem foldlM {ι : Type} {f : α → ι → Except ε α} {g : β → ι → Except ε β}
    (hstep : ∀ a b i, r a b → Alike r (f a i) (g b i)) (is : List ι) {a : α} {b : β} (h : r a b) :
    Alike r (is.foldlM f a) (is.foldlM g b) := by
  induction is generalizing a b with
  | nil => exact .ok h
  | cons i is ih => exact (hstep a b i h).bind fun _ _ h => ih h

theorem eq {x y : Except ε α} (h : Alike Eq x y) : x = y := by
  cases h with
  | error e => rfl
  | ok h => rw [h]

end Alike

theorem mapError_map (f : ε → ε') (g : α → β) (x : Except ε α) :
    (g <$> x).mapError f = g <$> x.mapError f := by
  cases x <;> rfl

end Except

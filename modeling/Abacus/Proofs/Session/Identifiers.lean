import Mathlib.Order.Bounds.Defs
import Abacus.Proofs.Session.Restarts

/-!
# Abacus — Session — Identifiers in one process

An identifier is the least one that its reading of the clock allows and that is greater than all
before it (`Identifier.isLeast_next`), so identifiers grow also when the clock stands still or goes
back.  A session whose history has begun empty lists the latest of them, newest first
(`Session.numbers_evaluateEach`), however many have been evicted.
-/

namespace Abacus

/-! ### The least identifier -/

namespace Identifier
variable {last : ℕ} {past : List ℕ}

/-- `last` is the greatest of the identifiers given out, or zero before the first one. -/
def IsLatest (last : ℕ) (past : List ℕ) : Prop :=
  (∀ id ∈ past, id ≤ last) ∧ (last ∈ past ∨ last = 0)

/-- The least identifier for a reading of the clock, given those before it: positive, not below the
milliseconds of the reading, and greater than all of them. -/
def IsLeastAfter (past : List ℕ) (us : ℤ) (id : ℕ) : Prop :=
  IsLeast {n | 0 < n ∧ millis us ≤ n ∧ ∀ earlier ∈ past, earlier < n} id

/-- The next identifier is the least one after those given out and not before its reading. -/
theorem isLeast_next (h : IsLatest last past) (us : ℤ) : IsLeastAfter past us (next last us) := by
  have hnext : next last us = max (millis us).toNat (last + 1) := rfl
  obtain ⟨hle, hlast⟩ := h
  constructor
  · refine ⟨by omega, by omega, fun id hid => ?_⟩
    have := hle id hid
    omega
  · rintro n ⟨hpos, hmillis, hbefore⟩
    have hgreater : last < n := by
      rcases hlast with hmem | rfl
      · exact hbefore last hmem
      · exact hpos
    omega

theorem isLatest_next (h : IsLatest last past) (us : ℤ) :
    IsLatest (next last us) (past ++ [next last us]) := by
  refine ⟨List.forall_mem_append.mpr ⟨fun id hid => ?_, by simp⟩, .inl (by simp)⟩
  exact (h.1 id hid).trans (lt_next last us).le

/-- Each identifier of a series is the least one after those before it. -/
theorem isLeastAfter_series (h : IsLatest last past) {readings : List ℤ} {k : ℕ} {us : ℤ}
    (hk : readings[k]? = some us) : ∃ id, (series last readings)[k]? = some id ∧
      IsLeastAfter (past ++ (series last readings).take k) us id := by
  induction readings generalizing last past k with
  | nil => cases hk
  | cons first readings ih =>
      cases k with
      | zero =>
          cases hk
          exact ⟨_, rfl, by simpa using isLeast_next h us⟩
      | succ k =>
          obtain ⟨id, hid, hleast⟩ := ih (isLatest_next h first) hk
          exact ⟨id, hid, by simpa [series] using hleast⟩

theorem length_series (last : ℕ) (readings : List ℤ) :
    (series last readings).length = readings.length := by
  induction readings generalizing last with
  | nil => rfl
  | cons us readings ih => rw [series, List.length_cons, ih, List.length_cons]

theorem series_append (last : ℕ) (earlier readings : List ℤ) :
    series last (earlier ++ readings) =
      series last earlier ++ series (earlier.foldl next last) readings := by
  induction earlier generalizing last with
  | nil => rfl
  | cons us earlier ih => rw [List.cons_append, series, ih]; rfl

end Identifier

/-! ### Sessions -/

namespace Session
variable {s : Session} {d : Desk}

theorem length_evaluateEach (s : Session) (d : Desk) (turns : List (ℤ × String)) :
    (s.evaluateEach d turns).1.length = turns.length := by
  induction turns generalizing s d with
  | nil => rfl
  | cons turn turns ih =>
      obtain ⟨us, x⟩ := turn
      obtain ⟨o, text, s₁, d₁, hrun, -⟩ := s.exists_evaluate x (d.showing us)
      rw [evaluateEach_cons hrun, List.length_cons, List.length_cons, ih]

/-- Each of the sessions lists the latest identifiers of the past and of the evaluations so far. -/
theorem numbers_evaluateEach {past : List ℕ} {turns : List (ℤ × String)} {k : ℕ} {after : Session}
    (hpast : s.numbers = past.reverse.take s.history.history.capacity)
    (hk : (s.evaluateEach d turns).1[k]? = some after) :
    after.numbers =
      (past ++ (Identifier.series d.lastId (turns.map Prod.fst)).take (k + 1)).reverse.take
        s.history.history.capacity := by
  induction turns generalizing s d past k with
  | nil => cases hk
  | cons turn turns ih =>
      obtain ⟨us, x⟩ := turn
      obtain ⟨o, text, s₁, d₁, hrun, -⟩ := s.exists_evaluate x (d.showing us)
      obtain ⟨hid, hcapacity, hnumbers⟩ := numbers_evaluate hrun
      have hid : d₁.lastId = Identifier.next d.lastId us := by
        simpa [Desk.showing, Clock.now] using hid
      rw [evaluateEach_cons hrun] at hk
      -- the identifier given out now is the latest of the past for what comes after
      have hpast₁ : s₁.numbers = (past ++ [d₁.lastId]).reverse.take s.history.history.capacity := by
        obtain ⟨n, hn⟩ := Nat.exists_eq_succ_of_ne_zero s.history.history.capacity_pos.ne'
        rw [hnumbers, hpast, List.reverse_concat, hn, List.take_succ_cons, List.take_succ_cons,
          List.take_take, Nat.min_eq_left n.le_succ]
      cases k with
      | zero =>
          cases hk
          rw [hpast₁, hid]
          rfl
      | succ k =>
          rw [← hcapacity] at hpast₁
          rw [ih hpast₁ hk, hcapacity, hid, List.append_assoc]
          rfl

end Session

/-- **Identifiers grow whatever the clock does.**  Let a session begin with an empty history in a
process that has given out identifiers before, and let it evaluate any texts at any readings of the
clock.  Each identifier of the process is the least positive number that is not below the
milliseconds of its own reading and is greater than all identifiers before it.  After each
evaluation the history lists the latest identifiers of the session, as far as its capacity reaches,
strictly decreasing from the newest to the oldest. -/
theorem identifiers_in_one_process (s : Session) (d : Desk) (earlier : List ℤ)
    (turns : List (ℤ × String)) (hempty : s.history.history.entries = [])
    (hlast : d.lastId = earlier.foldl Identifier.next 0) :
    ∃ ids : List ℕ, ids.length = earlier.length + turns.length ∧
      (∀ k us, (earlier ++ turns.map Prod.fst)[k]? = some us → ∃ id, ids[k]? = some id ∧
        Identifier.IsLeastAfter (ids.take k) us id) ∧
      (s.evaluateEach d turns).1.length = turns.length ∧
      ∀ k after, (s.evaluateEach d turns).1[k]? = some after →
        after.numbers =
          ((ids.drop earlier.length).take (k + 1)).reverse.take s.history.history.capacity ∧
        after.numbers.Pairwise (· > ·) := by
  let ids := Identifier.series 0 (earlier ++ turns.map Prod.fst)
  have hids : ids.drop earlier.length = Identifier.series d.lastId (turns.map Prod.fst) := by
    rw [show ids = _ from Identifier.series_append .., hlast,
      List.drop_left' (Identifier.length_series ..)]
  refine ⟨ids, by simp [ids, Identifier.length_series], fun k us hk => ?_,
    s.length_evaluateEach d turns, fun k after hk => ?_⟩
  · have hnone : Identifier.IsLatest 0 [] := ⟨by simp, .inr rfl⟩
    exact Identifier.isLeastAfter_series hnone hk
  · have hnumbers : after.numbers =
        ((ids.drop earlier.length).take (k + 1)).reverse.take s.history.history.capacity := by
      have hnone : s.numbers = [].reverse.take s.history.history.capacity := by
        simp [Session.numbers, hempty]
      rw [hids]
      exact Session.numbers_evaluateEach hnone hk
    refine ⟨hnumbers, hnumbers ▸ ?_⟩
    have hordered : ((ids.drop earlier.length).take (k + 1)).Pairwise (· < ·) :=
      (Identifier.pairwise_series ..).sublist ((List.take_sublist ..).trans (List.drop_sublist ..))
    exact (List.pairwise_reverse.mpr hordered).sublist (List.take_sublist ..)

/-- Two identifiers in one millisecond, one before the epoch, one ahead of the others, and a history
of two entries. -/
theorem identifiers_in_one_process_of_five :
    let s : Session := ⟨Session.emptyBuffer, ⟨{}, none⟩, ⟨.ofList 2 (by decide) [], none⟩⟩
    let earlier : List ℤ := [7000000]
    let d : Desk := { lastId := earlier.foldl Identifier.next 0 }
    let turns := [(5000000, "1"), (5000000, "2"), (-3000000, "3"), (9000000, "4")]
    s.history.history.entries = [] ∧ d.lastId = earlier.foldl Identifier.next 0 ∧
      (s.evaluateEach d turns).1.map Session.numbers =
        [[7001], [7002, 7001], [7003, 7002], [9000, 7003]] ∧
      ∀ (k : ℕ) (after : Session), (s.evaluateEach d turns).1[k]? = some after →
        after.numbers.Pairwise (· > ·) := by
  intro s earlier d turns
  obtain ⟨ids, -, -, -, hordered⟩ := identifiers_in_one_process s d earlier turns rfl rfl
  exact ⟨rfl, rfl, by decide +kernel, fun k after hk => (hordered k after hk).2⟩

end Abacus

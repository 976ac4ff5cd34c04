import Abacus.Proofs.Expression.Precedence
import Abacus.Proofs.Expression.Totality

/-!
# Abacus — Expression — Which sequences have a value

Numbers and operators in any order are the post-orders of some trees, up to the first operator that
is short of operands (`exists_forest`).  The evaluator works out these trees one by one: it stops at
the first application that fails (`run_forest_eq_failed_iff`), and what it leaves are the values of
the trees (`run_forest_eq_ok_iff`).  So a value is the value of the one tree that a sequence is the
post-order of, and `Malformed` says what is reported when there is no such tree.
-/

namespace Abacus

/-! ### Values of trees -/

namespace Postfix

/-- The operator of this token makes a finite number of two operands. -/
def Gives (table : OperatorTable) (op : OperatorToken) (a b v : Binary64) : Prop :=
  ∃ entry, table.get? op.symbol = some entry ∧ entry.apply a b = .ok v ∧ v.isFinite = true

/-- The operator of this token fails on two operands: with a failure of its own, or with overflow
where its number is too large or not finite. -/
inductive Faults (table : OperatorTable) (op : OperatorToken) (a b : Binary64) :
    Failure → Prop where
  | reported {entry : Operator} {f : Failure} (hget : table.get? op.symbol = some entry)
      (happly : entry.apply a b = .error (.reported f)) : Faults table op a b f
  | tooLarge {entry : Operator} (hget : table.get? op.symbol = some entry)
      (happly : entry.apply a b = .error .tooLarge) : Faults table op a b (.overflow a op.symbol b)
  | infinite {entry : Operator} {v : Binary64} (hget : table.get? op.symbol = some entry)
      (happly : entry.apply a b = .ok v) (hv : v.isFinite = false) :
      Faults table op a b (.overflow a op.symbol b)

section Application
variable {table : OperatorTable} {op : OperatorToken} {a b v : Binary64} {f : Failure}

/-- An application gives `v` exactly when it is so by the table. -/
theorem applyToken_eq_ok_iff : applyToken table op a b = .ok v ↔ Gives table op a b v := by
  unfold applyToken Gives
  cases hget : table.get? op.symbol with
  | none => simp
  | some entry =>
      simp only [apply, Option.some.injEq, exists_eq_left']
      cases happly : entry.apply a b with
      | ok w => by_cases hw : w.isFinite = true <;> grind
      | error e => cases e <;> simp

/-- An application fails with `f` exactly when it is so by the table. -/
theorem applyToken_eq_failed_iff :
    applyToken table op a b = .error (.failed f) ↔ Faults table op a b f := by
  constructor
  · intro h
    unfold applyToken at h
    cases hget : table.get? op.symbol with
    | none => rw [hget] at h; cases h
    | some entry =>
        simp only [hget, apply] at h
        cases happly : entry.apply a b with
        | ok w =>
            by_cases hw : w.isFinite = true
            · simp [happly, hw] at h
            · simp only [happly, hw] at h
              cases h
              exact .infinite hget happly (by simpa using hw)
        | error e =>
            rw [happly] at h
            cases e with
            | reported g => cases h; exact .reported hget happly
            | tooLarge => cases h; exact .tooLarge hget happly
            | zeroToNegative | notReal => cases h
  · intro h
    cases h with
    | reported hget happly => simp only [applyToken, hget, apply, happly]
    | tooLarge hget happly => simp only [applyToken, hget, apply, happly]
    | infinite hget happly hv => simp [applyToken, hget, apply, happly, hv]

end Application

end Postfix

namespace Tree

/-- The value of a tree whose applications all give finite numbers. -/
inductive Computes (table : OperatorTable) : Tree OperatorToken → Binary64 → Prop where
  | number (v : Binary64) : Computes table (.number v) v
  | node {op : OperatorToken} {l r : Tree OperatorToken} {a b v : Binary64}
      (hl : Computes table l a) (hr : Computes table r b) (h : Postfix.Gives table op a b v) :
      Computes table (.node op l r) v

/-- The operands of the tree's root have values, and its application fails on them. -/
inductive Fails (table : OperatorTable) : Tree OperatorToken → Failure → Prop where
  | node {op : OperatorToken} {l r : Tree OperatorToken} {a b : Binary64} {f : Failure}
      (hl : Computes table l a) (hr : Computes table r b) (h : Postfix.Faults table op a b f) :
      Fails table (.node op l r) f

/-- The applications of a tree in post-order, each as the tree that it is the root of. -/
def applications {α : Type} : Tree α → List (Tree α)
  | .number _    => []
  | .node op l r => l.applications ++ r.applications ++ [.node op l r]

/-- The first of these applications that fails does so with `f`. -/
def FirstFault (table : OperatorTable) (ns : List (Tree OperatorToken)) (f : Failure) : Prop :=
  ∃ before n after, ns = before ++ n :: after ∧ (∀ m ∈ before, ∃ v, m.Computes table v) ∧
    n.Fails table f

variable {table : OperatorTable} {f : Failure} {t : Tree OperatorToken} {v : Binary64}

/-- The evaluator gives a tree the value that it computes, and no other. -/
theorem eval_eq_ok_iff : t.eval table = .ok v ↔ t.Computes table v := by
  induction t generalizing v with
  | number w =>
      constructor
      · rintro ⟨⟩; exact .number w
      · rintro ⟨⟩; rfl
  | node op l r ihl ihr =>
      simp only [eval, Except.bind_eq_ok_iff, Postfix.applyToken_eq_ok_iff, ihl, ihr]
      constructor
      · rintro ⟨a, hl, b, hr, h⟩; exact .node hl hr h
      · rintro ⟨⟩; exact ⟨_, ‹_›, _, ‹_›, ‹_›⟩

/-- A tree has a value when each of its applications has one. -/
theorem exists_computes_iff :
    (∃ v, t.Computes table v) ↔ ∀ n ∈ t.applications, ∃ v, n.Computes table v := by
  induction t with
  | number w => exact ⟨fun _ => List.forall_mem_nil _, fun _ => ⟨w, .number w⟩⟩
  | node op l r ihl ihr =>
      simp only [applications, List.forall_mem_append, List.forall_mem_singleton, ← ihl, ← ihr]
      constructor
      · rintro ⟨v, hv⟩
        cases hv with
        | node hl hr h => exact ⟨⟨⟨_, hl⟩, _, hr⟩, v, .node hl hr h⟩
      · exact fun h => h.2

theorem not_firstFault_nil : ¬ FirstFault table [] f := by
  rintro ⟨before, n, after, hns, -⟩
  cases before <;> cases hns

/-- Either the first part has a fault, or it has none and the second part has one. -/
theorem firstFault_append {ns ms : List (Tree OperatorToken)} :
    FirstFault table (ns ++ ms) f ↔ FirstFault table ns f ∨
      (∀ n ∈ ns, ∃ v, n.Computes table v) ∧ FirstFault table ms f := by
  constructor
  · rintro ⟨before, n, after, hns, hbefore, hn⟩
    rcases List.append_eq_append_iff.mp hns with ⟨mid, rfl, rfl⟩ | ⟨mid, rfl, hmid⟩
    · obtain ⟨hfirst, hmid⟩ := List.forall_mem_append.mp hbefore
      exact .inr ⟨hfirst, mid, n, after, rfl, hmid, hn⟩
    · cases mid with
      | nil => exact .inr ⟨by simpa using hbefore, [], n, after, hmid.symm, by simp, hn⟩
      | cons m mid =>
          obtain ⟨rfl, -⟩ := List.cons.inj hmid
          exact .inl ⟨before, n, mid, rfl, hbefore, hn⟩
  · rintro (⟨before, n, after, rfl, hbefore, hn⟩ | ⟨hns, before, n, after, rfl, hbefore, hn⟩)
    · exact ⟨before, n, after ++ ms, by simp, hbefore, hn⟩
    · exact ⟨ns ++ before, n, after, by simp, List.forall_mem_append.mpr ⟨hns, hbefore⟩, hn⟩

/-- A single application is the first that fails if it fails at all. -/
theorem firstFault_singleton : FirstFault table [t] f ↔ t.Fails table f := by
  constructor
  · rintro ⟨before, n, after, hns, -, hn⟩
    cases before with
    | nil => cases hns; exact hn
    | cons m before => cases before <;> cases hns
  · exact fun h => ⟨[], t, [], rfl, by simp, h⟩

/-- A tree without a value to report fails as the first application that fails. -/
theorem eval_eq_failed_iff :
    t.eval table = .error (.failed f) ↔ FirstFault table t.applications f := by
  induction t with
  | number w => simpa [eval, applications] using not_firstFault_nil
  | node op l r ihl ihr =>
      simp only [eval, Except.bind_eq_error_iff, ihl, ihr, eval_eq_ok_iff,
        Postfix.applyToken_eq_failed_iff, applications, firstFault_append, firstFault_singleton,
        List.forall_mem_append, ← exists_computes_iff]
      constructor
      · rintro (h | ⟨a, ha, h | ⟨b, hb, h⟩⟩)
        · exact .inl (.inl h)
        · exact .inl (.inr ⟨⟨a, ha⟩, h⟩)
        · exact .inr ⟨⟨⟨a, ha⟩, b, hb⟩, .node ha hb h⟩
      · rintro ((h | ⟨⟨a, ha⟩, h⟩) | ⟨-, h⟩)
        · exact .inl h
        · exact .inr ⟨a, ha, .inl h⟩
        · cases h with
          | node hl hr h => exact .inr ⟨_, hl, .inr ⟨_, hr, h⟩⟩

end Tree

/-! ### Forests -/

namespace Postfix
variable {table : OperatorTable} {ts : List Token} {forest : List (Tree OperatorToken)}
  {f : Failure} {stack stack' : List Binary64}

/-- The post-orders of some trees leave the values of these trees. -/
theorem run_forest_eq_ok_iff :
    run table stack (forest.flatMap Tree.postOrder) = .ok stack' ↔
      ∃ vs, List.Forall₂ (fun t v => t.Computes table v) forest vs ∧
        stack' = vs.reverse ++ stack := by
  induction forest generalizing stack with
  | nil => simp [eq_comm]
  | cons t forest ih =>
      simp only [List.flatMap_cons, run_append, run_postOrder, Except.bind_eq_ok_iff,
        Except.map_eq_ok_iff, Tree.eval_eq_ok_iff, List.forall₂_cons_left_iff, ih]
      constructor
      · rintro ⟨_, ⟨v, hv, rfl⟩, vs, hvs, rfl⟩
        exact ⟨v :: vs, ⟨v, vs, hv, hvs, rfl⟩, by simp⟩
      · rintro ⟨_, ⟨v, vs, hv, hvs, rfl⟩, rfl⟩
        exact ⟨v :: stack, ⟨v, hv, rfl⟩, vs, hvs, by simp⟩

/-- The post-orders of some trees fail as the first application that fails. -/
theorem run_forest_eq_failed_iff :
    run table stack (forest.flatMap Tree.postOrder) = .error (.failed f) ↔
      Tree.FirstFault table (forest.flatMap Tree.applications) f := by
  induction forest generalizing stack with
  | nil => simpa using Tree.not_firstFault_nil
  | cons t forest ih =>
      simp only [List.flatMap_cons, run_append, run_postOrder, Except.bind_eq_error_iff,
        Except.map_eq_error_iff, Except.map_eq_ok_iff, Tree.eval_eq_failed_iff,
        Tree.eval_eq_ok_iff, Tree.firstFault_append, ← Tree.exists_computes_iff, ih]
      constructor
      · rintro (h | ⟨_, ⟨v, hv, -⟩, h⟩)
        · exact .inl h
        · exact .inr ⟨⟨v, hv⟩, h⟩
      · rintro (h | ⟨⟨v, hv⟩, h⟩)
        · exact .inl h
        · exact .inr ⟨_, ⟨v, hv, rfl⟩, h⟩

/-- What may follow trees that are finished: they are all, or an operator finds one at most. -/
theorem exists_forest_append (forest : List (Tree OperatorToken))
    (hts : ∀ t ∈ ts, t.isParen = false) :
    (∃ whole : List (Tree OperatorToken),
        forest.flatMap Tree.postOrder ++ ts = whole.flatMap Tree.postOrder) ∨
      ∃ (front : List (Tree OperatorToken)) (op : OperatorToken) (back : List Token),
        front.length < 2 ∧ forest.flatMap Tree.postOrder ++ ts =
          front.flatMap Tree.postOrder ++ .operator op :: back := by
  induction ts generalizing forest with
  | nil => exact .inl ⟨forest, List.append_nil _⟩
  | cons t ts ih =>
      obtain ⟨ht, hrest⟩ := List.forall_mem_cons.mp hts
      cases t with
      | number v =>
          have := ih (forest ++ [.number v]) hrest
          rwa [List.flatMap_append, List.flatMap_singleton, Tree.postOrder,
            List.append_assoc] at this
      | operator op =>
          rcases List.eq_nil_or_concat forest with rfl | ⟨init, r, rfl⟩
          · exact .inr ⟨[], op, ts, by simp, rfl⟩
          · rcases List.eq_nil_or_concat init with rfl | ⟨init, l, rfl⟩
            · exact .inr ⟨[r], op, ts, by simp, rfl⟩
            · -- the two latest trees become operands of a tree
              have := ih (init ++ [.node op l r]) hrest
              simp only [List.flatMap_append, List.flatMap_singleton, Tree.postOrder,
                List.append_assoc, List.concat_eq_append] at this ⊢
              exact this
      | leftParen => cases ht
      | rightParen => cases ht

/-- `Malformed ts forest f`: the sequence `ts` is the post-order of no one tree.  `forest` holds the
trees in front of the first operator that is short of operands, if there is one, or else all trees;
`f` says what is missing or left over. -/
inductive Malformed : List Token → List (Tree OperatorToken) → Failure → Prop where
  | missingOperand (forest : List (Tree OperatorToken)) (op : OperatorToken) (back : List Token)
      (h : forest.length < 2) :
      Malformed (forest.flatMap Tree.postOrder ++ .operator op :: back) forest
        (.missingOperand op.symbol)
  | leftOver (forest : List (Tree OperatorToken)) (h : forest.length ≠ 1) :
      Malformed (forest.flatMap Tree.postOrder) forest (.leftOver forest.length)

/-- A sequence without parentheses that is no tree in post-order is malformed. -/
theorem exists_malformed (hts : ∀ t ∈ ts, t.isParen = false)
    (h : ¬ ∃ t : Tree OperatorToken, ts = t.postOrder) : ∃ forest f, Malformed ts forest f := by
  rcases exists_forest_append [] hts with ⟨forest, hforest⟩ | ⟨forest, op, back, hlength, hforest⟩
  · obtain rfl : ts = forest.flatMap Tree.postOrder := hforest
    refine ⟨forest, _, .leftOver forest fun hone => h ?_⟩
    obtain ⟨t, rfl⟩ := List.length_eq_one_iff.mp hone
    exact ⟨t, List.flatMap_singleton ..⟩
  · obtain rfl : ts = forest.flatMap Tree.postOrder ++ .operator op :: back := hforest
    exact ⟨forest, _, .missingOperand forest op back hlength⟩

namespace Malformed

/-- Whatever the forest is, its failure is one of form. -/
theorem kind_eq (h : Malformed ts forest f) : f.kind = .illFormed := by
  cases h <;> rfl

/-- The sequence goes on from its trees. -/
theorem exists_append (h : Malformed ts forest f) :
    ∃ rest, ts = forest.flatMap Tree.postOrder ++ rest := by
  cases h with
  | missingOperand _ op back _ => exact ⟨_, rfl⟩
  | leftOver _ _ => exact ⟨[], (List.append_nil _).symm⟩

/-- A fault in the trees comes first. -/
theorem value_of_firstFault {g : Failure} (h : Malformed ts forest f)
    (hfault : Tree.FirstFault table (forest.flatMap Tree.applications) g) :
    value table ts = .error (.failed g) := by
  obtain ⟨rest, rfl⟩ := h.exists_append
  rw [value, run_append, run_forest_eq_failed_iff.mpr hfault]
  rfl

/-- Trees that have values do not make up for what is missing or left over. -/
theorem value_of_run (h : Malformed ts forest f)
    (hrun : run table [] (forest.flatMap Tree.postOrder) = .ok stack) :
    value table ts = .error (.failed f) := by
  obtain ⟨vs, hvs, rfl⟩ := run_forest_eq_ok_iff.mp hrun
  have hlength : (vs.reverse ++ []).length = forest.length := by simp [hvs.length_eq]
  cases h with
  | missingOperand _ op back hshort =>
      rw [value, run_append, hrun, Except.ok_bind, run_cons]
      rw [← hlength] at hshort
      rcases hstack : vs.reverse ++ [] with _ | ⟨b, _ | ⟨a, below⟩⟩
      · rfl
      · rfl
      · simp only [hstack, List.length_cons] at hshort
        omega
  | leftOver _ hone =>
      rw [value, hrun, Except.ok_bind, ← hlength]
      rw [← hlength] at hone
      rcases hstack : vs.reverse ++ [] with _ | ⟨b, _ | ⟨a, below⟩⟩
      · rfl
      · simp [hstack] at hone
      · rfl

/-- When nothing fails earlier, a malformed sequence fails for its form. -/
theorem value_of_not_firstFault (h : Malformed ts forest f) (htable : table.Answers)
    (hts : ∀ t ∈ ts, t.Evaluable table)
    (hnone : ¬ ∃ g, Tree.FirstFault table (forest.flatMap Tree.applications) g) :
    value table ts = .error (.failed f) := by
  obtain ⟨rest, hsplit⟩ := h.exists_append
  have hforest : ∀ t ∈ forest.flatMap Tree.postOrder, t.Evaluable table := fun t ht =>
    hts t (hsplit ▸ List.mem_append_left _ ht)
  rcases run_of_evaluable htable (List.forall_mem_nil _) hforest with ⟨g, hg⟩ | ⟨stack, hrun, -⟩
  · exact absurd ⟨g, run_forest_eq_failed_iff.mp hg⟩ hnone
  · exact h.value_of_run hrun

/-- A malformed sequence has no value, whatever its numbers and operators are. -/
theorem value_ne_ok (h : Malformed ts forest f) (htable : table.Answers)
    (hts : ∀ t ∈ ts, t.Evaluable table) (v : Binary64) : value table ts ≠ .ok v := by
  intro hv
  by_cases hfault : ∃ g, Tree.FirstFault table (forest.flatMap Tree.applications) g
  · obtain ⟨g, hg⟩ := hfault
    rw [h.value_of_firstFault hg] at hv
    cases hv
  · rw [h.value_of_not_firstFault htable hts hfault] at hv
    cases hv

end Malformed

end Postfix

theorem Token.Evaluable.isParen_eq_false {table : OperatorTable} {t : Token}
    (h : t.Evaluable table) : t.isParen = false := by
  cases t with
  | number v => rfl
  | operator op => rfl
  | leftParen => exact h.elim
  | rightParen => exact h.elim

/-- **A sequence has a value exactly when it is the post-order of a tree whose applications all give
finite numbers**: the value of this tree, and there is no other tree.  If an application of the tree
fails, the first one that fails is reported.  What is the post-order of no tree is short of operands
or leaves values over, and this is reported unless an application before it fails. -/
theorem value_of_sequence {table : OperatorTable} (htable : table.Answers) {ts : List Token}
    (hts : ∀ t ∈ ts, t.Evaluable table) :
    (∀ v, Postfix.value table ts = .ok v ↔
      ∃ t : Tree OperatorToken, ts = t.postOrder ∧ t.Computes table v) ∧
    (∀ t u : Tree OperatorToken, ts = t.postOrder → ts = u.postOrder → t = u) ∧
    (∀ t : Tree OperatorToken, ts = t.postOrder →
      (¬ ∀ n ∈ t.applications, ∃ v, n.Computes table v) →
        ∃ f, Tree.FirstFault table t.applications f ∧
          Postfix.value table ts = .error (.failed f)) ∧
    ((¬ ∃ t : Tree OperatorToken, ts = t.postOrder) →
      (∃ forest f, Postfix.Malformed ts forest f) ∧
      ∀ forest f, Postfix.Malformed ts forest f → f.kind = .illFormed ∧
        (∀ g, Tree.FirstFault table (forest.flatMap Tree.applications) g →
          Postfix.value table ts = .error (.failed g)) ∧
        ((¬ ∃ g, Tree.FirstFault table (forest.flatMap Tree.applications) g) →
          Postfix.value table ts = .error (.failed f))) := by
  have hexists := Postfix.exists_malformed fun t ht => (hts t ht).isParen_eq_false
  refine ⟨fun v => ⟨fun hv => ?_, ?_⟩, ?_, ?_, fun hnone => ⟨hexists hnone, fun forest f h => ?_⟩⟩
  · by_cases htree : ∃ t : Tree OperatorToken, ts = t.postOrder
    · obtain ⟨t, rfl⟩ := htree
      rw [Postfix.value_postOrder, Tree.eval_eq_ok_iff] at hv
      exact ⟨t, rfl, hv⟩
    · obtain ⟨forest, f, h⟩ := hexists htree
      exact absurd hv (h.value_ne_ok htable hts v)
  · rintro ⟨t, rfl, hv⟩
    rw [Postfix.value_postOrder, Tree.eval_eq_ok_iff]
    exact hv
  · exact fun t u ht hu => Tree.postOrder_injective (ht.symm.trans hu)
  · rintro t rfl hfails
    rw [← Tree.exists_computes_iff] at hfails
    rcases Postfix.value_of_evaluable htable hts with ⟨f, hf⟩ | ⟨v, hv, -⟩
    · rw [Postfix.value_postOrder, Tree.eval_eq_failed_iff] at hf
      exact ⟨f, hf, by rw [Postfix.value_postOrder, Tree.eval_eq_failed_iff]; exact hf⟩
    · rw [Postfix.value_postOrder, Tree.eval_eq_ok_iff] at hv
      exact absurd ⟨v, hv⟩ hfails
  · exact ⟨h.kind_eq, fun g hg => h.value_of_firstFault hg, h.value_of_not_firstFault htable hts⟩

/-- `1 0 / +` is short of an operand, but the division before it fails. -/
theorem value_of_sequence_of_division :
    let one := Binary64.ofInt 1
    let zero := Binary64.ofInt 0
    let ts := [.number one, .number zero, .operator Operation.quotient.token,
      .operator Operation.sum.token]
    OperatorTable.arithmetic.Answers ∧ (∀ t ∈ ts, Token.Evaluable .arithmetic t) ∧
      (¬ ∃ t : Tree OperatorToken, ts = t.postOrder) ∧
      Postfix.value .arithmetic ts = .error (.failed (.divisionByZero one zero)) := by
  intro one zero ts
  have hoperator (o : Operation) : Token.Evaluable .arithmetic (.operator o.token) :=
    ⟨o.entry, by cases o <;> simp [OperatorTable.entries_arithmetic], OperatorTable.get?_symbol o⟩
  have hnumber {v : Binary64} (hv : v.isFinite = true) :
      Token.Evaluable .arithmetic (.number v) := hv
  have hts : ∀ t ∈ ts, Token.Evaluable .arithmetic t := by
    simp only [ts, List.forall_mem_cons, List.not_mem_nil, false_implies, implies_true, and_true]
    exact ⟨hnumber (by decide), hnumber (by decide), hoperator _, hoperator _⟩
  let division : Tree OperatorToken := .node Operation.quotient.token (.number one) (.number zero)
  have hnone : ¬ ∃ t : Tree OperatorToken, ts = t.postOrder := by
    rintro ⟨t, ht⟩
    cases t with
    | number v => simp [ts, Tree.postOrder] at ht
    | node op l r =>
        -- the division is the whole of what stands before the last operator
        have hsides : [] ++ division.postOrder = l.postOrder ++ r.postOrder := by
          have hsplit : division.postOrder ++ [.operator Operation.sum.token] =
            l.postOrder ++ r.postOrder ++ [.operator op] := ht
          exact (List.append_inj' hsplit rfl).1
        obtain ⟨hleft, -⟩ := Tree.append_postOrder_inj hsides
        cases l <;> simp [Tree.postOrder] at hleft
  have happly : Operation.quotient.entry.apply one zero =
      .error (.reported (.divisionByZero one zero)) := by decide
  have hfault : Tree.FirstFault .arithmetic ([division].flatMap Tree.applications)
      (.divisionByZero one zero) :=
    ⟨[], division, [], rfl, List.forall_mem_nil _,
      .node (.number _) (.number _) (.reported (OperatorTable.get?_symbol .quotient) happly)⟩
  obtain ⟨-, -, -, hvalue⟩ := value_of_sequence OperatorTable.answers_arithmetic hts
  refine ⟨OperatorTable.answers_arithmetic, hts, hnone, ?_⟩
  exact ((hvalue hnone).2 [division] _ (.missingOperand [division] _ [] (by decide))).2.1 _ hfault

end Abacus

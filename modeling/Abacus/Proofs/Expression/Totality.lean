import Abacus.Proofs.Expression.Arithmetic
import Abacus.Proofs.Expression.Lexeme
import Abacus.Proofs.Expression.Order

/-!
# Abacus — Expression — Every calculation has an outcome

With operators that answer finite operands with a number or a failure to report, nothing stops a
calculation.  What reaches the evaluator is finite numbers and operators of the table
(`evaluable_of_ofInfix`); on these a step reports a failure or leaves finite numbers again
(`Postfix.step_of_evaluable`), and so does a run.
-/

namespace Abacus

/-- The number of an outcome. -/
def Outcome.value? (o : Outcome) : Option Binary64 :=
  o.result.toOption

/-- The kind of an outcome's failure. -/
def Outcome.kind? (o : Outcome) : Option FailureKind :=
  match o.result with
  | .ok _    => none
  | .error k => some k

/-- Finite operands give a number or a failure to report: at the least, that the number would be
too large. -/
def Operator.Answers (op : Operator) : Prop :=
  ∀ a b : Binary64, a.isFinite = true → b.isFinite = true → ∀ e, op.apply a b = .error e →
    e = .tooLarge ∨ ∃ f, e = .reported f

def OperatorTable.Answers (table : OperatorTable) : Prop :=
  ∀ op ∈ table.entries, op.Answers

/-- The operations of arithmetic answer; only a division ever reports a failure. -/
theorem OperatorTable.answers_arithmetic : arithmetic.Answers := by
  intro op hop a b _ _ e he
  obtain ⟨o, rfl⟩ := exists_operation hop
  cases o with
  | sum | difference | product => cases he
  | quotient =>
      simp only [Operation.entry, Binary64.quotient] at he
      split at he
      · cases he; exact .inr ⟨_, rfl⟩
      · cases he

/-! ### What reaches the evaluator -/

/-- A finite number or an operator of the table. -/
def Token.Evaluable (table : OperatorTable) : Token → Prop
  | .number v               => v.isFinite = true
  | .operator op            => ∃ entry ∈ table.entries, table.get? op.symbol = some entry
  | .leftParen | .rightParen => False

/-- What the scanner reads, parentheses apart, can be evaluated. -/
theorem Lexeme.Spells.evaluable {table : OperatorTable} {l : Lexeme} {t : Token}
    (h : l.Spells table t) (ht : t.isParen = false) : t.Evaluable table := by
  cases t with
  | number v =>
      obtain ⟨-, -, -, -, -, hv⟩ := h.number
      exact hv
  | operator op =>
      obtain ⟨entry, -, hentry, rfl⟩ := h.operator
      exact ⟨entry, List.mem_of_find?_eq_some hentry, OperatorTable.get?_token hentry⟩
  | leftParen => cases ht
  | rightParen => cases ht

/-- The numbers and operators of a scanned text can be evaluated. -/
theorem Token.evaluable_of_scan {table : OperatorTable} {text : String} {ts : List Token}
    (h : scan table text = .ok ts) : ∀ t ∈ withoutParens ts, t.Evaluable table := by
  obtain ⟨ls, -, -, hspells⟩ := exists_spells h
  intro t ht
  obtain ⟨hmem, hparen⟩ := List.mem_filter.mp ht
  obtain ⟨l, hl⟩ : ∃ l, Lexeme.Spells table l t := by
    clear ht h
    induction hspells with
    | nil => cases hmem
    | cons hl _ ih =>
        rcases List.mem_cons.mp hmem with rfl | hmem
        · exact ⟨_, hl⟩
        · exact ih hmem
  exact hl.evaluable (by simpa using hparen)

/-- Put into postfix order, a scanned text holds nothing that cannot be evaluated. -/
theorem evaluable_of_ofInfix {table : OperatorTable} {text : String} {ts out : List Token}
    (hscan : Token.scan table text = .ok ts) (hout : Postfix.ofInfix ts = .ok out) :
    ∀ t ∈ out, t.Evaluable table :=
  fun t ht => Token.evaluable_of_scan hscan t ((Postfix.ofInfix_perm hout).mem_iff.mp ht)

/-! ### Steps that do not stop -/

namespace Postfix
variable {table : OperatorTable}

/-- An operator that answers gives a finite number or a failure that can be reported. -/
theorem apply_of_answers {op : Operator} (h : op.Answers) (s : String) {a b : Binary64}
    (ha : a.isFinite = true) (hb : b.isFinite = true) :
    (∃ f, apply op s a b = .error (.failed f)) ∨ ∃ v, apply op s a b = .ok v := by
  cases happly : op.apply a b with
  | ok v =>
      simp only [apply, happly]
      by_cases hv : v.isFinite = true
      · exact .inr ⟨v, if_pos hv⟩
      · exact .inl ⟨_, if_neg hv⟩
  | error e =>
      simp only [apply, happly]
      rcases h a b ha hb e happly with rfl | ⟨f, rfl⟩
      · exact .inl ⟨_, rfl⟩
      · exact .inl ⟨f, rfl⟩

/-- On finite numbers, a token that can be evaluated reports a failure or leaves finite numbers. -/
theorem step_of_evaluable (h : table.Answers) {stack : List Binary64} {t : Token}
    (hstack : ∀ v ∈ stack, v.isFinite = true) (ht : t.Evaluable table) :
    (∃ f, step table stack t = .error (.failed f)) ∨
      ∃ stack', step table stack t = .ok stack' ∧ ∀ v ∈ stack', v.isFinite = true := by
  cases t with
  | number v => exact .inr ⟨v :: stack, rfl, List.forall_mem_cons.mpr ⟨ht, hstack⟩⟩
  | operator op =>
      rcases stack with _ | ⟨b, _ | ⟨a, rest⟩⟩
      · exact .inl ⟨_, rfl⟩
      · exact .inl ⟨_, rfl⟩
      · obtain ⟨entry, hmem, hget⟩ := ht
        obtain ⟨hb, ha, hrest⟩ := by simpa only [List.forall_mem_cons] using hstack
        have htoken : applyToken table op a b = apply entry op.symbol a b := by
          simp only [applyToken, hget]
        rw [step_operator, htoken]
        rcases apply_of_answers (h entry hmem) op.symbol ha hb with ⟨f, hf⟩ | ⟨v, hv⟩
        · exact .inl ⟨f, by rw [hf]; rfl⟩
        · refine .inr ⟨v :: rest, by rw [hv]; rfl, ?_⟩
          exact List.forall_mem_cons.mpr ⟨isFinite_of_apply hv, hrest⟩
  | leftParen => exact ht.elim
  | rightParen => exact ht.elim

/-- A run does so as well, and leaves finite numbers alone on the stack. -/
theorem run_of_evaluable (h : table.Answers) {stack : List Binary64} {ts : List Token}
    (hstack : ∀ v ∈ stack, v.isFinite = true) (hts : ∀ t ∈ ts, t.Evaluable table) :
    (∃ f, run table stack ts = .error (.failed f)) ∨
      ∃ stack', run table stack ts = .ok stack' ∧ ∀ v ∈ stack', v.isFinite = true := by
  induction ts generalizing stack with
  | nil => exact .inr ⟨stack, rfl, hstack⟩
  | cons t ts ih =>
      obtain ⟨ht, hts⟩ := List.forall_mem_cons.mp hts
      rw [run_cons]
      rcases step_of_evaluable h hstack ht with ⟨f, hf⟩ | ⟨s, hs, hfinite⟩
      · exact .inl ⟨f, by rw [hf]; rfl⟩
      · rw [hs, Except.ok_bind]
        exact ih hfinite hts

/-- The value of a sequence is a finite number or a failure that can be reported. -/
theorem value_of_evaluable (h : table.Answers) {ts : List Token}
    (hts : ∀ t ∈ ts, t.Evaluable table) :
    (∃ f, value table ts = .error (.failed f)) ∨
      ∃ v, value table ts = .ok v ∧ v.isFinite = true := by
  rcases run_of_evaluable h (List.forall_mem_nil _) hts with ⟨f, hf⟩ | ⟨stack, hstack, hfinite⟩
  · exact .inl ⟨f, by rw [value, hf]; rfl⟩
  · rw [value, hstack, Except.ok_bind]
    rcases stack with _ | ⟨v, _ | ⟨w, rest⟩⟩
    · exact .inl ⟨_, rfl⟩
    · exact .inr ⟨v, rfl, hfinite v List.mem_cons_self⟩
    · exact .inl ⟨_, rfl⟩

end Postfix

/-- A text has a finite value or a failure to report. -/
theorem valueOf_of_answers {table : OperatorTable} (h : table.Answers) (text : String) :
    (∃ f, valueOf table text = .error (.failed f)) ∨
      ∃ v, valueOf table text = .ok v ∧ v.isFinite = true := by
  rw [valueOf_eq_bind]
  cases hscan : Token.scan table text with
  | error f => exact .inl ⟨f, rfl⟩
  | ok ts =>
      rw [Except.mapError_ok, Except.ok_bind, Postfix.valueOfInfix]
      cases hout : Postfix.ofInfix ts with
      | error f => exact .inl ⟨f, rfl⟩
      | ok out => exact Postfix.value_of_evaluable h (evaluable_of_ofInfix hscan hout)

/-- **Every calculation has an outcome.**  With operators that answer, as those of arithmetic do,
nothing stops a calculation: it has a finite number or the kind of a failure and never both, and
every number that it reads or works out on the way is finite. -/
theorem calculate_total :
    OperatorTable.arithmetic.Answers ∧
    ∀ table : OperatorTable, table.Answers → ∀ raw : String,
      (∃ c, calculate table raw = .ok c ∧ c.expression = canonicalText raw ∧
        c.outcome.value?.isSome = !c.outcome.kind?.isSome ∧
        ∀ v, c.outcome.value? = some v → v.isFinite = true) ∧
      ∀ ts, Token.scan table (canonicalText raw) = .ok ts →
        (∀ v, .number v ∈ ts → v.isFinite = true) ∧
        ∀ out, Postfix.ofInfix ts = .ok out →
          ∀ n stack, Postfix.run table [] (out.take n) = .ok stack →
            ∀ v ∈ stack, v.isFinite = true := by
  refine ⟨OperatorTable.answers_arithmetic, fun table h raw => ⟨?_, fun ts hscan => ⟨?_, ?_⟩⟩⟩
  · rcases valueOf_of_answers h (canonicalText raw) with ⟨f, hf⟩ | ⟨v, hv, hfinite⟩
    · refine ⟨⟨canonicalText raw, .error f⟩, ?_, rfl, rfl, fun v hv => ?_⟩
      · simp only [calculate, hf]
      · cases hv
    · refine ⟨⟨canonicalText raw, .ok v⟩, ?_, rfl, rfl, fun w hw => ?_⟩
      · simp only [calculate, hv]
      · cases hw; exact hfinite
  · intro v hv
    exact Token.evaluable_of_scan hscan (.number v) (List.mem_filter.mpr ⟨hv, rfl⟩)
  · intro out hout n stack hrun
    refine Postfix.run_finite (by simp) (fun v hv => ?_) hrun
    exact evaluable_of_ofInfix hscan hout (.number v) (List.mem_of_mem_take hv)

/-- Arithmetic answers, so even a division by zero has an outcome. -/
theorem calculate_total_arithmetic :
    OperatorTable.arithmetic.Answers ∧
      ∃ c, calculate .arithmetic "2/(1-1)" = .ok c ∧ c.expression = canonicalText "2/(1-1)" := by
  obtain ⟨harithmetic, htotal⟩ := calculate_total
  obtain ⟨⟨c, hc, hexpression, -⟩, -⟩ := htotal .arithmetic harithmetic "2/(1-1)"
  exact ⟨harithmetic, c, hc, hexpression⟩

end Abacus

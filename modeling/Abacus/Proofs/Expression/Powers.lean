import Abacus.Proofs.Binary64.Order
import Abacus.Proofs.Expression.Totality

/-!
# Abacus — Expression — Where a calculation stops

An operator that gives neither a number nor a failure to report stops a calculation, and nothing
else does (`calculate_eq_error_iff`): one operator's application stops the step, and a sequence of
steps stops where one of them does.  Arithmetic has no such operator.  A table with powers has
one, and finite operands that have no power are told by their signs and whether they are whole
(`Operator.breaks_caret_iff`).
-/

namespace Abacus

/-! ### What stops a calculation -/

/-- The operator gives neither a number nor a failure to report. -/
inductive Operator.Breaks (op : Operator) (a b : Binary64) : Stop → Prop where
  | zeroToNegative : op.apply a b = .error .zeroToNegative → op.Breaks a b .zeroToNegative
  | notReal : op.apply a b = .error .notReal → op.Breaks a b .notReal

/-- A function that answers does not break on finite numbers. -/
theorem Operator.Answers.not_breaks {op : Operator} {a b : Binary64} {stop : Stop}
    (h : op.Answers) (ha : a.isFinite = true) (hb : b.isFinite = true) : ¬ op.Breaks a b stop := by
  rintro (hstop | hstop)
  all_goals rcases h a b ha hb _ hstop with hlarge | ⟨f, hf⟩
  · cases hlarge
  · cases hf
  · cases hlarge
  · cases hf

theorem OperatorTable.mem_of_get? {table : OperatorTable} {symbol : String} {op : Operator}
    (h : table.get? symbol = some op) : op ∈ table.entries := by
  unfold get? at h
  split at h
  · exact List.mem_of_find?_eq_some h
  · cases h

/-- The calculation of `raw` comes to apply `op` to `a` and `b`: the tokens before it have left
these two on top of the stack. -/
def ComesTo (table : OperatorTable) (raw : String) (op : Operator) (a b : Binary64) : Prop :=
  ∃ ts done token rest below, Token.scan table (canonicalText raw) = .ok ts ∧
    Postfix.ofInfix ts = .ok (done ++ .operator token :: rest) ∧
    Postfix.run table [] done = .ok (b :: a :: below) ∧ table.get? token.symbol = some op

/-- What a calculation comes to apply is in its table. -/
theorem ComesTo.mem {table : OperatorTable} {raw : String} {op : Operator} {a b : Binary64}
    (h : ComesTo table raw op a b) : op ∈ table.entries := by
  obtain ⟨ts, done, token, rest, below, -, -, -, hget⟩ := h
  exact OperatorTable.mem_of_get? hget

/-- It is applied to finite numbers only. -/
theorem ComesTo.isFinite {table : OperatorTable} {raw : String} {op : Operator} {a b : Binary64}
    (h : ComesTo table raw op a b) : a.isFinite = true ∧ b.isFinite = true := by
  obtain ⟨ts, done, token, rest, below, hscan, hout, hrun, -⟩ := h
  have hfinite : ∀ v ∈ b :: a :: below, v.isFinite = true := by
    refine Postfix.run_finite (by simp) (fun v hv => ?_) hrun
    exact evaluable_of_ofInfix hscan hout (.number v) (List.mem_append_left _ hv)
  exact ⟨hfinite a (by simp), hfinite b (by simp)⟩

namespace Postfix
variable {table : OperatorTable} {stop : Stop}

/-- An application stops without a failure to report exactly when its function breaks. -/
theorem apply_eq_error_iff {op : Operator} {s : String} {a b : Binary64}
    (hstop : ∀ f, stop ≠ .failed f) : apply op s a b = .error stop ↔ op.Breaks a b stop := by
  constructor
  · intro h
    unfold apply at h
    split at h
    · split at h
      · cases h
      · cases h; exact absurd rfl (hstop _)
    · cases h; exact absurd rfl (hstop _)
    · cases h; exact absurd rfl (hstop _)
    · next happly => cases h; exact .zeroToNegative happly
    · next happly => cases h; exact .notReal happly
  · rintro (happly | happly) <;> simp only [apply, happly]

/-- A token that can be evaluated stops a run only as an operator that breaks. -/
theorem step_eq_error_iff {stack : List Binary64} {t : Token} (ht : t.Evaluable table)
    (hstop : ∀ f, stop ≠ .failed f) :
    step table stack t = .error stop ↔ ∃ token op a b below, t = .operator token ∧
      stack = b :: a :: below ∧ table.get? token.symbol = some op ∧ op.Breaks a b stop := by
  cases t with
  | number v => simp
  | operator token =>
      obtain ⟨op, -, hget⟩ := ht
      -- too few operands are a failure to report
      rcases stack with _ | ⟨b, _ | ⟨a, below⟩⟩
      · simpa [step] using (hstop _).symm
      · simpa [step] using (hstop _).symm
      · simp [step_operator, applyToken, hget, Except.map_eq_error_iff, apply_eq_error_iff hstop]
  | leftParen => exact ht.elim
  | rightParen => exact ht.elim

/-- A run stops at the first operator that breaks. -/
theorem run_eq_error_iff {stack : List Binary64} {ts : List Token}
    (hts : ∀ t ∈ ts, t.Evaluable table) (hstop : ∀ f, stop ≠ .failed f) :
    run table stack ts = .error stop ↔ ∃ done token rest op a b below,
      ts = done ++ .operator token :: rest ∧ run table stack done = .ok (b :: a :: below) ∧
        table.get? token.symbol = some op ∧ op.Breaks a b stop := by
  rw [run, Except.foldlM_eq_error_iff]
  constructor
  · rintro ⟨done, t, rest, stack', rfl, hdone, hstep⟩
    obtain ⟨token, op, a, b, below, rfl, rfl, hget, hbreaks⟩ :=
      (step_eq_error_iff (hts t (by simp)) hstop).mp hstep
    exact ⟨done, token, rest, op, a, b, below, rfl, hdone, hget, hbreaks⟩
  · rintro ⟨done, token, rest, op, a, b, below, rfl, hdone, hget, hbreaks⟩
    have hstep : step table (b :: a :: below) (.operator token) = .error stop :=
      (step_eq_error_iff (hts _ (by simp)) hstop).mpr
        ⟨token, op, a, b, below, rfl, rfl, hget, hbreaks⟩
    exact ⟨done, .operator token, rest, _, rfl, hdone, hstep⟩

/-- A sequence stops so when its run does; for its form it only ever fails. -/
theorem value_eq_error_iff {ts : List Token} (hstop : ∀ f, stop ≠ .failed f) :
    value table ts = .error stop ↔ run table [] ts = .error stop := by
  rw [value, Except.bind_eq_error_iff, or_iff_left]
  rintro ⟨stack, -, hleft⟩
  rcases stack with _ | ⟨v, _ | ⟨w, below⟩⟩
  · cases hleft; exact hstop _ rfl
  · cases hleft
  · cases hleft; exact hstop _ rfl

end Postfix

theorem Operator.Breaks.ne_failed {op : Operator} {a b : Binary64} {stop : Stop}
    (h : op.Breaks a b stop) : ∀ f, stop ≠ .failed f := by
  rintro f rfl
  cases h

/-- A failure that is reported is no other way to stop. -/
theorem mapError_failed_ne {α : Type} {x : Except Failure α} {stop : Stop}
    (hstop : ∀ f, stop ≠ .failed f) : x.mapError Stop.failed ≠ .error stop := by
  intro h
  obtain ⟨f, -, rfl⟩ := Except.mapError_eq_error_iff.mp h
  exact hstop f rfl

/-- A text stops the calculation when an application that it comes to breaks. -/
theorem valueOf_eq_error_iff {table : OperatorTable} {raw : String} {stop : Stop}
    (hstop : ∀ f, stop ≠ .failed f) :
    valueOf table (canonicalText raw) = .error stop ↔
      ∃ op a b, ComesTo table raw op a b ∧ op.Breaks a b stop := by
  simp only [valueOf_eq_bind, Postfix.valueOfInfix, Except.bind_eq_error_iff,
    mapError_failed_ne hstop, false_or, Except.mapError_eq_ok_iff, Postfix.value_eq_error_iff hstop]
  constructor
  · rintro ⟨ts, hscan, out, hout, hrun⟩
    obtain ⟨done, token, rest, op, a, b, below, rfl, hdone, hget, hbreaks⟩ :=
      (Postfix.run_eq_error_iff (evaluable_of_ofInfix hscan hout) hstop).mp hrun
    exact ⟨op, a, b, ⟨ts, done, token, rest, below, hscan, hout, hdone, hget⟩, hbreaks⟩
  · rintro ⟨op, a, b, ⟨ts, done, token, rest, below, hscan, hout, hdone, hget⟩, hbreaks⟩
    refine ⟨ts, hscan, _, hout,
      (Postfix.run_eq_error_iff (evaluable_of_ofInfix hscan hout) hstop).mpr ?_⟩
    exact ⟨done, token, rest, op, a, b, below, rfl, hdone, hget, hbreaks⟩

/-- A calculation stops exactly where it comes to apply an operator that breaks. -/
theorem calculate_eq_error_iff {table : OperatorTable} {raw : String} {stop : Stop} :
    calculate table raw = .error stop ↔
      ∃ op a b, ComesTo table raw op a b ∧ op.Breaks a b stop := by
  have hcalculate : calculate table raw = .error stop ↔
      valueOf table (canonicalText raw) = .error stop ∧ ∀ f, stop ≠ .failed f := by
    unfold calculate
    dsimp only
    split <;> grind
  rw [hcalculate]
  constructor
  · rintro ⟨hvalue, hstop⟩
    exact (valueOf_eq_error_iff hstop).mp hvalue
  · rintro ⟨op, a, b, hcomes, hbreaks⟩
    exact ⟨(valueOf_eq_error_iff hbreaks.ne_failed).mpr ⟨op, a, b, hcomes, hbreaks⟩,
      hbreaks.ne_failed⟩

/-- What a calculation returns is a finite number or the kind of a failure, never both. -/
theorem outcome_of_calculate {table : OperatorTable} {raw : String} {c : Calculation}
    (h : calculate table raw = .ok c) : c.expression = canonicalText raw ∧
      c.outcome.value?.isSome = !c.outcome.kind?.isSome ∧
      ∀ v, c.outcome.value? = some v → v.isFinite = true := by
  unfold calculate at h
  dsimp only at h
  split at h
  · next v hv =>
      cases h
      refine ⟨rfl, rfl, fun w hw => ?_⟩
      cases hw
      have hverdict : verdict table raw = .ok (.ok v) := by
        rw [verdict_eq_settle, hv, settle_ok]
      obtain ⟨ts, hscan, hvalue⟩ := verdict_eq_ok_iff.mp hverdict
      obtain ⟨out, hout, hrun⟩ := Postfix.valueOfInfix_eq_ok_iff.mp hvalue
      exact Postfix.run_finite (by simp) (fun w => evaluable_of_ofInfix hscan hout (.number w)) hrun
        v (by simp)
  · next f hf =>
      cases h
      exact ⟨rfl, rfl, fun w hw => by cases hw⟩
  · cases h

/-! ### Powers -/

/-- Powers bind tighter than products and group to the right. -/
def Operator.caret : Operator :=
  ⟨'^', 3, .right, Binary64.power⟩

/-- The operations of arithmetic and powers. -/
def OperatorTable.withPowers : OperatorTable where
  entries := arithmetic.entries ++ [.caret]
  nodup := by decide

/-- Finite numbers without a power: zero has none of a negative exponent, and a negative number
none of an exponent that is not whole, unless the power of its size is too large already. -/
inductive Binary64.LacksPower (a b : Binary64) : Stop → Prop where
  | zeroToNegative : a.isZero = true → b.isNegative = true → b.isZero = false →
      a.LacksPower b .zeroToNegative
  | notReal : a.isZero = false → a.isNegative = true → b.isIntegral = false →
      (∃ size, a.abs.pow b = .ok size) → a.LacksPower b .notReal

namespace Binary64
variable {a b : Binary64}

theorem isOddIntegral_of_not_isIntegral (h : b.isIntegral = false) : b.isOddIntegral = false := by
  cases b <;> simp_all [isOddIntegral]

theorem isZero_abs : a.abs.isZero = a.isZero := by
  cases a <;> rfl

theorem isFinite_abs : a.abs.isFinite = a.isFinite := by
  cases a <;> rfl

theorem isNegative_abs : a.abs.isNegative = false := by
  cases a <;> rfl

/-- A positive base lacks no power but those that are too large. -/
theorem eq_tooLarge_of_powPositive {negate : Bool} {e : PowerFailure}
    (h : powPositive negate a b = .error e) : e = .tooLarge := by
  unfold powPositive at h
  dsimp only at h
  split at h <;> cases h
  rfl

/-- Anything to the power of zero is one, zero included. -/
theorem pow_of_isZero (h : b.isZero = true) : a.pow b = .ok one := by
  unfold pow
  rw [if_pos h]

/-- The only powers that zero lacks are the negative ones. -/
theorem pow_of_zero_base (ha : a.isZero = true) (hb : b.isFinite = true)
    (hbzero : b.isZero = false) : a.pow b = if b.isNegative then .error .zeroToNegative
      else .ok (zero (a.isNegative && b.isOddIntegral)) := by
  cases a <;> cases b <;> simp_all [pow, isZero, isFinite, isNegative]

/-- A positive base has the power that the platform works out. -/
theorem pow_of_positive (ha : a.isFinite = true) (hazero : a.isZero = false)
    (hasign : a.isNegative = false) (hb : b.isFinite = true) (hbzero : b.isZero = false) :
    a.pow b = powPositive false a b := by
  cases a <;> cases b <;> simp_all [pow, isZero, isFinite, isNegative]

/-- A negative number is raised by its size, and the size comes first. -/
theorem pow_of_negative (ha : a.isFinite = true) (hazero : a.isZero = false)
    (hasign : a.isNegative = true) (hb : b.isFinite = true) (hbzero : b.isZero = false) :
    a.pow b = powPositive b.isOddIntegral a.abs b >>= fun v =>
      if b.isIntegral then .ok v else .error .notReal := by
  cases a with
  | nan => cases ha
  | inf s => cases ha
  | finite s m e h =>
      cases hasign
      cases b with
      | nan => cases hb
      | inf t => cases hb
      | finite t n f k =>
          have hm : m ≠ 0 := by simpa [isZero] using hazero
          have hn : n ≠ 0 := by simpa [isZero] using hbzero
          simp only [pow, isZero, beq_iff_eq, hm, hn, if_false, if_true, abs]
          generalize powPositive _ _ _ = size
          cases size <;> rfl

/-- The operator passes on that a power does not exist, and for which reason. -/
theorem power_eq_zeroToNegative :
    a.power b = .error .zeroToNegative ↔ a.pow b = .error .zeroToNegative := by
  unfold power
  split <;> simp_all

theorem power_eq_notReal : a.power b = .error .notReal ↔ a.pow b = .error .notReal := by
  unfold power
  split <;> simp_all

/-- What is wrong with finite operands that have no power, too large a power apart. -/
theorem pow_eq_error_iff {e : PowerFailure} (ha : a.isFinite = true) (hb : b.isFinite = true)
    (he : e ≠ .tooLarge) : a.pow b = .error e ↔
      (e = .zeroToNegative ∧ a.isZero = true ∧ b.isNegative = true ∧ b.isZero = false) ∨
      (e = .notReal ∧ a.isZero = false ∧ a.isNegative = true ∧ b.isIntegral = false ∧
        ∃ size, a.abs.pow b = .ok size) := by
  have hpositive : ∀ negate c, powPositive negate c b ≠ .error e :=
    fun negate c h => he (eq_tooLarge_of_powPositive h)
  -- the exponent zero comes first: it also gives a power of zero
  cases hbzero : b.isZero with
  | true => simp [pow_of_isZero hbzero, isIntegral_of_isZero hbzero]
  | false =>
      cases hazero : a.isZero with
      | true =>
          rw [pow_of_zero_base hazero hb hbzero]
          cases b.isNegative <;> simp [@eq_comm _ e]
      | false =>
          cases hasign : a.isNegative with
          | false => simp [pow_of_positive ha hazero hasign hb hbzero, hpositive]
          | true =>
              have hsize : a.abs.pow b = powPositive false a.abs b :=
                pow_of_positive (isFinite_abs.trans ha) (isZero_abs.trans hazero) isNegative_abs hb
                  hbzero
              rw [pow_of_negative ha hazero hasign hb hbzero, Except.bind_eq_error_iff, hsize,
                or_iff_right (hpositive _ _)]
              cases hwhole : b.isIntegral with
              | true => simp
              | false => simp [isOddIntegral_of_not_isIntegral hwhole, @eq_comm _ e, and_comm]

end Binary64

/-- Of finite operands, the caret breaks on those without a power. -/
theorem Operator.breaks_caret_iff {a b : Binary64} {stop : Stop} (ha : a.isFinite = true)
    (hb : b.isFinite = true) : caret.Breaks a b stop ↔ a.LacksPower b stop := by
  have hzero := Binary64.pow_eq_error_iff (e := .zeroToNegative) ha hb (by decide)
  have hroot := Binary64.pow_eq_error_iff (e := .notReal) ha hb (by decide)
  simp only [true_and, reduceCtorEq, false_and, or_false, false_or] at hzero hroot
  constructor
  · rintro (h | h)
    · obtain ⟨hazero, hbsign, hbzero⟩ := hzero.mp (Binary64.power_eq_zeroToNegative.mp h)
      exact .zeroToNegative hazero hbsign hbzero
    · obtain ⟨hazero, hasign, hwhole, hsize⟩ := hroot.mp (Binary64.power_eq_notReal.mp h)
      exact .notReal hazero hasign hwhole hsize
  · rintro (⟨hazero, hbsign, hbzero⟩ | ⟨hazero, hasign, hwhole, hsize⟩)
    · have hpow := hzero.mpr ⟨hazero, hbsign, hbzero⟩
      exact .zeroToNegative (Binary64.power_eq_zeroToNegative.mpr hpow)
    · have hpow := hroot.mpr ⟨hazero, hasign, hwhole, hsize⟩
      exact .notReal (Binary64.power_eq_notReal.mpr hpow)

/-- A calculation with powers stops exactly when it comes to a power that does not exist. -/
theorem calculate_withPowers_eq_error_iff {raw : String} {stop : Stop} :
    calculate .withPowers raw = .error stop ↔
      ∃ a b, ComesTo .withPowers raw .caret a b ∧ a.LacksPower b stop := by
  rw [calculate_eq_error_iff]
  constructor
  · rintro ⟨op, a, b, hcomes, hbreaks⟩
    obtain ⟨ha, hb⟩ := hcomes.isFinite
    rcases List.mem_append.mp hcomes.mem with hop | hop
    · exact absurd hbreaks ((OperatorTable.answers_arithmetic op hop).not_breaks ha hb)
    · obtain rfl := List.mem_singleton.mp hop
      exact ⟨a, b, hcomes, (Operator.breaks_caret_iff ha hb).mp hbreaks⟩
  · rintro ⟨a, b, hcomes, hlacks⟩
    obtain ⟨ha, hb⟩ := hcomes.isFinite
    exact ⟨.caret, a, b, hcomes, (Operator.breaks_caret_iff ha hb).mpr hlacks⟩

/-- **A calculation with powers stops exactly where it comes to a power that there is not**: one of
zero with a negative exponent, or one of a negative number whose exponent is not whole.  Every
other one, too large powers among them, has a finite number or the kind of a failure, and never
both. -/
theorem calculate_withPowers (raw : String) :
    (∀ stop, calculate .withPowers raw = .error stop ↔
      ∃ a b, ComesTo .withPowers raw .caret a b ∧ a.LacksPower b stop) ∧
    ((∃ c, calculate .withPowers raw = .ok c ∧ c.expression = canonicalText raw ∧
        c.outcome.value?.isSome = !c.outcome.kind?.isSome ∧
        ∀ v, c.outcome.value? = some v → v.isFinite = true) ∨
      ∃ stop a b, ComesTo .withPowers raw .caret a b ∧ a.LacksPower b stop) := by
  refine ⟨fun stop => calculate_withPowers_eq_error_iff, ?_⟩
  cases hcalculate : calculate .withPowers raw with
  | ok c => exact .inl ⟨c, rfl, outcome_of_calculate hcalculate⟩
  | error stop => exact .inr ⟨stop, calculate_withPowers_eq_error_iff.mp hcalculate⟩

/-- Neither zero to the power minus one nor the square root of minus one has an outcome. -/
theorem calculate_withPowers_stops :
    calculate .withPowers "0^-1" = .error .zeroToNegative ∧
      calculate .withPowers "-1^0.5" = .error .notReal := by
  have hcanonical : canonicalText "0^-1" = "0^-1" ∧ canonicalText "-1^0.5" = "-1^0.5" := by
    decide +kernel
  have hvalue : valueOf .withPowers "0^-1" = .error .zeroToNegative ∧
      valueOf .withPowers "-1^0.5" = .error .notReal := by
    decide +kernel
  simp only [calculate, hcanonical, hvalue, and_self]

end Abacus

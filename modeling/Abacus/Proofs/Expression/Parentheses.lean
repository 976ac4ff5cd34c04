import Abacus.Proofs.Expression.Arithmetic
import Abacus.Proofs.Expression.Lexeme
import Abacus.Proofs.Expression.Order

/-!
# Abacus — Expression — Parentheses

A part in parentheses matters through its value alone.  In a sequence of tokens it may be replaced
by the number that is its value (`Postfix.valueOfInfix_group`), whatever stands around it; and the
text around it is scanned as if it were not there (`Token.scanFrom_group`).
-/

namespace Abacus

/-! ### Tokens -/

namespace Postfix
variable {table : OperatorTable}

/-- What leaves one number does what the number does. -/
theorem value_of_run {ts : List Token} {v : Binary64} (h : run table [] ts = .ok [v])
    (before after : List Token) :
    value table (before ++ (ts ++ after)) = value table (before ++ .number v :: after) := by
  have hts (stack : List Binary64) : run table stack ts = .ok (v :: stack) := run_frame stack h
  have hrun : run table [] (before ++ (ts ++ after)) =
      run table [] (before ++ .number v :: after) := by
    rw [run_append, run_append]
    simp only [run_append, run_cons, step_number, hts, Except.ok_bind]
  rw [value, value, hrun]

/-- A part in parentheses does what its value does, whatever stands around it. -/
theorem valueOfInfix_group {ts : List Token} {v : Binary64} (h : valueOfInfix table ts = .ok v)
    (before after : List Token) :
    valueOfInfix table (before ++ (.leftParen :: ts ++ .rightParen :: after)) =
      valueOfInfix table (before ++ .number v :: after) := by
  obtain ⟨out, hout, hrun⟩ := valueOfInfix_eq_ok_iff.mp h
  rw [valueOfInfix, valueOfInfix, ofInfix, ofInfix]
  rcases convertFrom_append [] before with ⟨f, hf⟩ | ⟨pre, waiting, hpre⟩
  · rw [hf, hf]
  · -- both sequences meet the same waiting operators, and leave them as they were
    have hgroup : convertFrom waiting (.leftParen :: ts ++ .rightParen :: after) =
        (out ++ ·) <$> convertFrom waiting after := by
      rw [List.cons_append, convertFrom_leftParen]
      exact convertFrom_frame hout waiting after
    rw [hpre, hpre, hgroup, convertFrom_number]
    cases convertFrom waiting after with
    | error f => rfl
    | ok post => exact value_of_run hrun pre post

end Postfix

/-! ### Texts -/

namespace Token

/-- The tokens of what stands before and behind a part in parentheses, or what is wrong there. -/
def around (table : OperatorTable) (before after : List Char) :
    Except FailureKind (List Token × List Token) := do
  let ts ← (scanFrom table true 0 before).mapError Failure.kind
  let us ← (scanFrom table false 0 after).mapError Failure.kind
  return (ts, us)

@[simp] theorem around_nil (table : OperatorTable) : around table [] [] = .ok ([], []) := by
  rw [around, scanFrom, scanFrom]
  rfl

/-- A part in parentheses that has tokens has them wherever it stands. -/
theorem scanFrom_group {table : OperatorTable} (hopen : table.find? '(' = none)
    (hclose : table.find? ')' = none) {cs : List Char} {ts : List Token}
    (h : scanFrom table true 0 cs = .ok ts) (before after : List Char) :
    (scanFrom table true 0 (before ++ '(' :: (cs ++ ')' :: after))).mapError Failure.kind =
      (fun sides => sides.1 ++ (.leftParen :: ts ++ .rightParen :: sides.2)) <$>
        around table before after := by
  have hin (position : Nat) :
      (scanFrom table true position cs).mapError Failure.kind = .ok ts := by
    rw [scanFrom_position position 0, h]
    rfl
  rw [scanFrom_append (by decide), Except.mapError_bind, around]
  cases scanFrom table true 0 before with
  | error f => rfl
  | ok us =>
      simp only [Except.mapError_ok, Except.ok_bind]
      rw [Except.mapError_map, scanFrom_opening hopen, Except.mapError_map,
        scanFrom_append (by decide), Except.mapError_bind, hin, Except.ok_bind,
        Except.mapError_map, scanFrom_closing hclose, Except.mapError_map, scanFrom_position _ 0]
      cases (scanFrom table false 0 after).mapError Failure.kind <;> rfl

end Token

/-- The normal form is taken character by character, so it passes through parentheses. -/
theorem canonicalText_group (p e q : String) :
    (canonicalText (p ++ "(" ++ e ++ ")" ++ q)).toList =
      (canonicalText p).toList ++
        '(' :: ((canonicalText e).toList ++ ')' :: (canonicalText q).toList) := by
  have hopen : plainSymbol '(' = '(' ∧ Text.isBlank '(' = false := by decide
  have hclose : plainSymbol ')' = ')' ∧ Text.isBlank ')' = false := by decide
  simp [canonicalText, Text.withoutBlanks, hopen, hclose]

/-- A part in parentheses does what its value does, whatever text stands around it. -/
theorem verdict_group {e : String} {v : Binary64} (h : verdict .arithmetic e = .ok (.ok v))
    (p q : String) :
    verdict .arithmetic (p ++ "(" ++ e ++ ")" ++ q) =
      match Token.around .arithmetic (canonicalText p).toList (canonicalText q).toList with
      | .ok (ts, us) => settle (Postfix.valueOfInfix .arithmetic (ts ++ .number v :: us))
      | .error k     => .ok (.error k) := by
  obtain ⟨ts, hscan, hvalue⟩ := verdict_eq_ok_iff.mp h
  rw [verdict_eq_bind, Token.scan, canonicalText_group,
    Token.scanFrom_group OperatorTable.find?_leftParen OperatorTable.find?_rightParen hscan]
  cases Token.around .arithmetic (canonicalText p).toList (canonicalText q).toList with
  | error k => rfl
  | ok sides =>
      exact congrArg settle (Postfix.valueOfInfix_group hvalue sides.1 sides.2)

/-- **A part in parentheses matters through its value alone.**  Expressions of one value may stand
for each other between parentheses, whatever stands around them; and an expression with a value has
it in parentheses too. -/
theorem verdict_group_congr :
    (∀ (e₁ e₂ : String) (v : Binary64), verdict .arithmetic e₁ = .ok (.ok v) →
      verdict .arithmetic e₂ = .ok (.ok v) → ∀ p q : String,
        verdict .arithmetic (p ++ "(" ++ e₁ ++ ")" ++ q) =
          verdict .arithmetic (p ++ "(" ++ e₂ ++ ")" ++ q)) ∧
    ∀ (e : String) (v : Binary64), verdict .arithmetic e = .ok (.ok v) →
      verdict .arithmetic ("(" ++ e ++ ")") = .ok (.ok v) := by
  refine ⟨fun e₁ e₂ v h₁ h₂ p q => ?_, fun e v h => ?_⟩
  · rw [verdict_group h₁ p q, verdict_group h₂ p q]
  · have := verdict_group h "" ""
    rw [String.empty_append, String.append_empty, show (canonicalText "").toList = [] from rfl,
      Token.around_nil] at this
    exact this

/-- `1+2` and `6/2` may stand for each other even where the text around them is no expression. -/
theorem verdict_group_congr_sum :
    verdict .arithmetic "1+2" = .ok (.ok (Binary64.ofInt 3)) ∧
      verdict .arithmetic "6/2" = .ok (.ok (Binary64.ofInt 3)) ∧
      verdict .arithmetic ("2*)" ++ "(" ++ "1+2" ++ ")" ++ "7") =
        verdict .arithmetic ("2*)" ++ "(" ++ "6/2" ++ ")" ++ "7") ∧
      verdict .arithmetic ("(" ++ "6/2" ++ ")") = .ok (.ok (Binary64.ofInt 3)) := by
  have hsum : verdict .arithmetic "1+2" = .ok (.ok (Binary64.ofInt 3)) := by decide +kernel
  have hquotient : verdict .arithmetic "6/2" = .ok (.ok (Binary64.ofInt 3)) := by decide +kernel
  exact ⟨hsum, hquotient, verdict_group_congr.1 _ _ _ hsum hquotient "2*)" "7",
    verdict_group_congr.2 _ _ hquotient⟩

end Abacus

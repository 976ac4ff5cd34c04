import Abacus.Expression.Evaluation
import Abacus.Expression.Postfix
import Abacus.Expression.Scan
/-!
# Abacus — Expression — Calculation

The whole way from typed text to a value or a failure, which is what the user is shown.
-/

namespace Abacus

/-- What came of an expression: a number or the kind of its failure. -/
structure Outcome where
  expression : String
  result : Except FailureKind Binary64

namespace Outcome

def isOk (o : Outcome) : Bool :=
  o.result.isOk

/-- The message of a failed outcome. -/
def message? (o : Outcome) : Option String :=
  match o.result with
  | .ok _    => none
  | .error k => some k.message

end Outcome

/-- An expression with its value or the cause of its failure. -/
structure Calculation where
  expression : String
  result : Except Failure Binary64

namespace Calculation

def outcome (c : Calculation) : Outcome :=
  ⟨c.expression, c.result.mapError Failure.kind⟩

/-- The warning that a failed calculation leaves. -/
def warning? (c : Calculation) : Option String :=
  match c.result with
  | .ok _    => none
  | .error f => some ("❌ Could not evaluate " ++ Text.quoted c.expression ++ ": " ++ f.message)

end Calculation

/-- The value of a normalised text. -/
def valueOf (table : OperatorTable) (text : String) : Except Stop Binary64 := do
  let tokens ← (Token.scan table text).mapError .failed
  let ordered ← (Postfix.ofInfix tokens).mapError .failed
  Postfix.value table ordered

/-- Calculates what the user typed. Failures are part of the answer; only an operator of the
caller's own making can stop the calculation. -/
def calculate (table : OperatorTable) (raw : String) : Except Stop Calculation :=
  let expression := canonicalText raw
  match valueOf table expression with
  | .ok v              => .ok ⟨expression, .ok v⟩
  | .error (.failed f) => .ok ⟨expression, .error f⟩
  | .error stop        => .error stop

end Abacus

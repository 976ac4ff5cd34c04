import Abacus.Expression.Operator
/-!
# Abacus — Expression — Evaluation

The value of a postfix sequence, worked out on a stack of numbers.
-/

namespace Abacus

/-- Why an evaluation ends without a value: a failure to report, or something that a table or a
sequence of the caller's own making brought in. -/
inductive Stop where
  | failed (f : Failure)
  | unknownSymbol (symbol : String)
  | zeroToNegative
  | notReal
  | notAToken
  deriving DecidableEq

namespace Postfix

/-- The number an operator gives. One that is not finite counts as an overflow. -/
def apply (op : Operator) (symbol : String) (a b : Binary64) : Except Stop Binary64 :=
  match op.apply a b with
  | .ok v                    =>
      if v.isFinite then .ok v else .error (.failed (.overflow a symbol b))
  | .error (.reported f)     => .error (.failed f)
  | .error .tooLarge         => .error (.failed (.overflow a symbol b))
  | .error .zeroToNegative   => .error .zeroToNegative
  | .error .notReal          => .error .notReal

/-- One token with the values so far, the latest first: a number joins them, an operator takes the
two latest. -/
def step (table : OperatorTable) : List Binary64 → Token → Except Stop (List Binary64)
  | stack, .number v => .ok (v :: stack)
  | b :: a :: stack, .operator op =>
      match table.get? op.symbol with
      | none       => .error (.unknownSymbol op.symbol)
      | some entry => (apply entry op.symbol a b).map (· :: stack)
  | _, .operator op => .error (.failed (.missingOperand op.symbol))
  | _, .leftParen   => .error (.failed (.misplaced "LeftParenToken(kind='left_paren')"))
  | _, .rightParen  => .error (.failed (.misplaced "RightParenToken(kind='right_paren')"))

/-- The values that a sequence of tokens leaves. -/
def run (table : OperatorTable) (stack : List Binary64) (ts : List Token) :
    Except Stop (List Binary64) :=
  ts.foldlM (step table) stack

/-- The one value that a sequence of tokens leaves. -/
def value (table : OperatorTable) (ts : List Token) : Except Stop Binary64 := do
  match ← run table [] ts with
  | [v]   => return v
  | stack => throw (.failed (.leftOver stack.length))

end Postfix

end Abacus

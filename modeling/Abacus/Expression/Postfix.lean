import Abacus.Expression.Failure
import Abacus.Expression.Token
/-!
# Abacus — Expression — Postfix

From infix to postfix order: operators wait on a stack until their right operand is complete. An
opening parenthesis waits there too, and what waits below it stays until it is closed.
-/

namespace Abacus.Postfix

/-- What waits for the rest of the expression. -/
inductive Waiting where
  | operator (op : OperatorToken)
  | leftParen
  deriving DecidableEq

namespace Waiting

def isOperator : Waiting → Bool
  | .operator _ => true
  | .leftParen  => false

/-- An operator has its right operand once one comes that binds no tighter, or, grouping to the
right, one that binds less tightly. -/
def yieldsTo (incoming : OperatorToken) : Waiting → Bool
  | .operator top =>
      match incoming.associativity with
      | .left  => decide (incoming.precedence ≤ top.precedence)
      | .right => decide (incoming.precedence < top.precedence)
  | .leftParen => false

/-- The token that leaves the stack for the output. -/
def token : Waiting → Token
  | .operator op => .operator op
  | .leftParen   => .leftParen

end Waiting

/-- The output for the rest of an expression, given what waits, the latest first. -/
def convertFrom : List Waiting → List Token → Except Failure (List Token)
  | stack, [] =>
      if stack.all Waiting.isOperator then .ok (stack.map Waiting.token)
      else .error .unclosedOpen
  | stack, .number v :: ts => do
      let out ← convertFrom stack ts
      return .number v :: out
  | stack, .operator op :: ts => do
      let out ← convertFrom (.operator op :: stack.dropWhile (Waiting.yieldsTo op)) ts
      return (stack.takeWhile (Waiting.yieldsTo op)).map Waiting.token ++ out
  | stack, .leftParen :: ts => convertFrom (.leftParen :: stack) ts
  | stack, .rightParen :: ts =>
      match stack.dropWhile Waiting.isOperator with
      | []        => .error .unexpectedClose
      | _ :: rest => do
          let out ← convertFrom rest ts
          return (stack.takeWhile Waiting.isOperator).map Waiting.token ++ out

/-- The postfix order of a sequence of tokens, or what is wrong with its parentheses. -/
def ofInfix (ts : List Token) : Except Failure (List Token) :=
  convertFrom [] ts

end Abacus.Postfix

import Abacus.Binary64.Basic
/-!
# Abacus — Expression — Token

What an expression is made of once it has been read: numbers, operators and parentheses.
-/

namespace Abacus

/-- Which way a chain of operators of one precedence groups. -/
inductive Associativity where
  | left
  | right
  deriving DecidableEq, Repr

def Associativity.name : Associativity → String
  | .left  => "left"
  | .right => "right"

def Associativity.ofName? : String → Option Associativity
  | "left"  => some .left
  | "right" => some .right
  | _       => none

/-- An operator as it stands in an expression; the higher precedence binds tighter. -/
structure OperatorToken where
  symbol : String
  precedence : Nat
  associativity : Associativity
  deriving DecidableEq, Repr

inductive Token where
  | number (value : Binary64)
  | operator (op : OperatorToken)
  | leftParen
  | rightParen
  deriving DecidableEq

end Abacus

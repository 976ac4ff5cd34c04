import Abacus.Decimal.Literal
import Abacus.Text.Quoted
/-!
# Abacus — Expression — Failure

Why an expression has no value: the kinds the user sees, the causes behind them, and the wording
of both.
-/

namespace Abacus

inductive FailureKind where
  | invalidCharacter
  | mismatchedParentheses
  | illFormed
  | divisionByZero
  | overflow
  deriving DecidableEq, Repr

def FailureKind.message : FailureKind → String
  | .invalidCharacter      => "Invalid character"
  | .mismatchedParentheses => "Mismatched parentheses"
  | .illFormed             => "Syntax error"
  | .divisionByZero        => "Division by zero"
  | .overflow              => "Overflow"

/-- Every kind, in order of its stage. -/
def FailureKind.all : List FailureKind :=
  [.invalidCharacter, .mismatchedParentheses, .illFormed, .divisionByZero, .overflow]

/-- The cause of a failure, with what its wording needs. -/
inductive Failure where
  | strayCharacter (c : Char) (position : Nat)
  | malformedNumber (literal : String)
  | numberOutOfRange (literal : String)
  | unexpectedClose
  | unclosedOpen
  | missingOperand (symbol : String)
  | leftOver (count : Nat)
  | misplaced (description : String)
  | divisionByZero (dividend divisor : Binary64)
  | overflow (left : Binary64) (symbol : String) (right : Binary64)
  deriving DecidableEq

namespace Failure

def kind : Failure → FailureKind
  | .strayCharacter ..   => .invalidCharacter
  | .malformedNumber _   => .illFormed
  | .numberOutOfRange _  => .overflow
  | .unexpectedClose     => .mismatchedParentheses
  | .unclosedOpen        => .mismatchedParentheses
  | .missingOperand _    => .illFormed
  | .leftOver _          => .illFormed
  | .misplaced _         => .illFormed
  | .divisionByZero ..   => .divisionByZero
  | .overflow ..         => .overflow

def detail : Failure → String
  | .strayCharacter c i   => Text.quoted (String.singleton c) ++ " at position " ++ toString i
  | .malformedNumber l    => "malformed number " ++ Text.quoted l
  | .numberOutOfRange l   => "literal " ++ String.ofList (l.toList.take 16) ++ "... out of range"
  | .unexpectedClose      => "unexpected ')'"
  | .unclosedOpen         => "unclosed '('"
  | .missingOperand s     => "not enough operands for " ++ Text.quoted s
  | .leftOver n           => toString n ++ " values remain on the stack"
  | .misplaced d          => "unexpected token in postfix: " ++ d
  | .divisionByZero a b   => a.literal ++ " / " ++ b.literal
  | .overflow a s b       => a.literal ++ " " ++ s ++ " " ++ b.literal

def message (f : Failure) : String :=
  f.kind.message ++ ": " ++ f.detail

end Failure

end Abacus

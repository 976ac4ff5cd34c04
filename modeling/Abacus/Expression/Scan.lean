import Abacus.Decimal.Numeral
import Abacus.Expression.Operator
import Abacus.Text.Character
/-!
# Abacus — Expression — Scan

From typed text to tokens. Keypad glyphs become plain symbols and blanks go; what is left is read
from left to right. A sign at the start, behind an operator or behind an opening parenthesis
belongs to the number after it, if one stands there.
-/

namespace Abacus

/-- The plain symbol of a keypad glyph. -/
def plainSymbol (c : Char) : Char :=
  if c == '×' then '*' else if c == '÷' then '/' else c

/-- The text that is scanned for what the user typed. -/
def canonicalText (raw : String) : String :=
  String.ofList (Text.withoutBlanks (raw.toList.map plainSymbol))

namespace Token

/-- Characters of unsigned numbers. -/
def isNumeric (c : Char) : Bool :=
  Text.isPlainDigit c || c == '.'

def isSign (c : Char) : Bool :=
  c == '+' || c == '-'

/-- The token of a run of digits and points with its sign, if it has one. -/
def ofLiteral (literal : List Char) : Except Failure Token :=
  match Binary64.ofFixed? literal with
  | none   => .error (.malformedNumber (String.ofList literal))
  | some v =>
      if v.isFinite then .ok (.number v) else .error (.numberOutOfRange (String.ofList literal))

/-- The tokens of the rest of a text, which begins at `position`; `atPrefix` says that a sign
there would belong to a number. -/
def scanFrom (table : OperatorTable) (atPrefix : Bool) (position : Nat) :
    List Char → Except Failure (List Token)
  | [] => .ok []
  | c :: cs =>
      let run := cs.takeWhile isNumeric
      have := (List.dropWhile_sublist isNumeric (l := cs)).length_le
      if isNumeric c then do
        let t ← ofLiteral (c :: run)
        let ts ← scanFrom table false (position + 1 + run.length) (cs.dropWhile isNumeric)
        return t :: ts
      else match table.find? c with
        | some op =>
            if isSign c && atPrefix && !run.isEmpty then do
              let t ← ofLiteral (c :: run)
              let ts ← scanFrom table false (position + 1 + run.length) (cs.dropWhile isNumeric)
              return t :: ts
            else do
              let ts ← scanFrom table true (position + 1) cs
              return .operator op.token :: ts
        | none =>
            if c == '(' then do
              let ts ← scanFrom table true (position + 1) cs
              return .leftParen :: ts
            else if c == ')' then do
              let ts ← scanFrom table false (position + 1) cs
              return .rightParen :: ts
            else .error (.strayCharacter c position)
termination_by cs => cs.length
decreasing_by
  all_goals first
    | exact Nat.lt_succ_of_le this
    | exact Nat.lt_succ_self _

/-- The tokens of a normalised text. -/
def scan (table : OperatorTable) (text : String) : Except Failure (List Token) :=
  scanFrom table true 0 text.toList

end Token

end Abacus

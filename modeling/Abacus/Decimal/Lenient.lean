import Abacus.Decimal.Numeral
import Abacus.Text.Character
/-!
# Abacus — Decimal — Lenient

Integers as people write them into settings and arguments: blanks around them, single underscores
between digits, digits of any script.
-/

namespace Abacus.Decimal

/-- The blanks that may stand around a numeral once it is in plain characters. -/
def isOuterBlank (c : Char) : Bool :=
  c == ' ' || (decide ('\t' ≤ c) && decide (c ≤ '\r'))

/-- A character of a numeral in plain characters: blanks beyond ASCII become spaces and digits of
other scripts plain digits; what else lies beyond ASCII fits no numeral. -/
def plainChar (c : Char) : Char :=
  if c.toNat < 127 then c
  else if Text.isBlank c then ' '
  else match Text.decimalValue? c with
    | some n => Nat.digitChar n
    | none   => '?'

/-- A numeral in plain characters, without the blanks around it. -/
def plain (s : String) : List Char :=
  Text.stripEnds isOuterBlank (s.toList.map plainChar)

/-- Takes out the underscores, each of which must stand between two digits; `previous` is the
character before. -/
def joined? (previous : Char) : List Char → Option (List Char)
  | [] => if previous == '_' then none else some []
  | c :: cs =>
      if c == '_' then
        if Text.isPlainDigit previous then joined? c cs else none
      else if previous == '_' && !Text.isPlainDigit c then none
      else (joined? c cs).map (c :: ·)

inductive IntegerFailure where
  | notAnInteger
  | tooManyDigits (count : Nat)
  deriving DecidableEq, Repr

/-- The most digits that a written integer may have. -/
def digitLimit : Nat := 4300

/-- Reads an integer. Too many digits are refused before what follows them is looked at. -/
def lenientInt (s : String) : Except IntegerFailure Int :=
  let (negative, cs) := splitSign (plain s)
  let isInner := fun c => Text.isPlainDigit c || c == '_'
  match joined? ' ' (cs.takeWhile isInner) with
  | none => .error .notAnInteger
  | some ds =>
      if digitLimit < ds.length then .error (.tooManyDigits ds.length)
      else if ds.isEmpty || !(cs.dropWhile isInner).isEmpty then .error .notAnInteger
      else .ok (if negative then -(ofDigits ds : Int) else ofDigits ds)

end Abacus.Decimal

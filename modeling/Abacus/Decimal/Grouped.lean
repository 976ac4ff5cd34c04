import Abacus.Decimal.Lenient
/-!
# Abacus — Decimal — Grouped

Numerals given as texts in the fields of records: plain digits, which underscores may group, white
space around them, infinity and not-a-number by name. An integer may carry a point and zeros.
-/

namespace Abacus.Decimal

/-- Whether no two underscores stand together, after a character `previous`. With an underscore
for `previous`, none begins the text and none ends it. -/
def separates (previous : Char) : List Char → Bool
  | []      => previous != '_'
  | c :: cs => !(previous == '_' && c == '_') && separates c cs

/-- Takes out the underscores, each of which must stand alone between two other characters. -/
def ungrouped? (cs : List Char) : Option (List Char) :=
  if separates '_' cs then some (cs.filter (· != '_')) else none

/-! ### Numbers -/

/-- The names of the numbers that digits cannot write. -/
def named? (cs : List Char) : Option Binary64 :=
  let (negative, word) := splitSign cs
  match String.ofList (word.map Char.toLower) with
  | "inf"      => some (.inf negative)
  | "infinity" => some (.inf negative)
  | "nan"      => some .nan
  | _          => none

/-- A number by its name or as a numeral with an optional exponent. -/
def number? (cs : List Char) : Option Binary64 :=
  named? cs <|> Binary64.ofScientific? cs

/-- Reads a number with white space around it, or with underscores in it, but not with both. -/
def groupedNumber? (s : String) : Option Binary64 :=
  number? (Text.stripEnds Text.isSpace s.toList) <|> (ungrouped? s.toList).bind number?

/-! ### Integers -/

/-- An integer in its plain form: digits that do not begin with a zero, or a lone zero, behind a
minus or nothing. Too many characters are refused before what follows them is looked at. -/
def plainInt (cs : List Char) : Except IntegerFailure Int :=
  let (negative, body) := if cs.head? == some '-' then (true, cs.tail) else (false, cs)
  let rest := body.dropWhile Text.isPlainDigit
  let size := cs.length - rest.length
  if body.head? == some '0' then (if body.length = 1 then .ok 0 else .error .notAnInteger)
  else if digitLimit < size then .error (.tooManyDigits size)
  else if body.isEmpty || !rest.isEmpty then .error .notAnInteger
  else .ok (if negative then -(ofDigits body : Int) else ofDigits body)

/-- Passes over zeros that begin a text, with underscores among them, up to another digit or a
minus. If the text or its whole part ends before one comes, the last character passed over stays.
The text has to begin with a digit. -/
def pastZeros? : List Char → Option (List Char)
  | [] => none
  | c :: cs =>
      if c == '0' then
        let fills := fun c => c == '0' || c == '_'
        let last := (cs.takeWhile fills).getLastD '0'
        match cs.dropWhile fills with
        | []        => some [last]
        | d :: rest =>
            if d == '.' then some (last :: d :: rest)
            else if Text.isPlainDigit d || d == '-' then some (d :: rest)
            else none
      else if Text.isPlainDigit c then some (c :: cs)
      else none

/-- The text before a point that has zeros and nothing else behind it, one at least. -/
def withoutZeroPlaces (cs : List Char) : List Char :=
  match cs.dropWhile (· != '.') with
  | _ :: '0' :: places => if places.all (· == '0') then cs.takeWhile (· != '.') else cs
  | _                  => cs

/-- The plain form of an integer with white space around it, a sign before it, needless zeros at
either end or underscores in it. -/
def cleaned? (cs : List Char) : Option (List Char) := do
  let (negative, body) := splitSign (Text.stripEnds Text.isSpace cs)
  let digits ← pastZeros? body
  let whole := withoutZeroPlaces digits
  let ds := (ungrouped? whole).getD whole
  return if negative then '-' :: ds else ds

/-- Reads an integer. Too many digits are told apart from other faults only in plain form. -/
def groupedInt (s : String) : Except IntegerFailure Int :=
  match plainInt s.toList with
  | .error .notAnInteger =>
      match cleaned? s.toList with
      | some cs => (plainInt cs).mapError fun _ => .notAnInteger
      | none    => .error .notAnInteger
  | r => r

end Abacus.Decimal

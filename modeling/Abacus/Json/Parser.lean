import Abacus.Decimal.Lenient
import Abacus.Json.Basic
/-!
# Abacus — Json — Parser

Reading documents. Beyond the standard, the names `NaN`, `Infinity` and `-Infinity` are numbers;
of fields with one name the last value counts, in the first one's place.
-/

namespace Abacus.Json

/-- The four blanks of the format. -/
def isGap (c : Char) : Bool :=
  c == ' ' || c == '\t' || c == '\n' || c == '\r'

def skipGap (cs : List Char) : List Char :=
  cs.dropWhile isGap

/-- Takes a fixed word off the front. -/
def word? (w : String) (cs : List Char) : Option (List Char) :=
  if w.toList.isPrefixOf cs then some (cs.drop w.length) else none

/-! ### Strings -/

def hexValue? (c : Char) : Option Nat :=
  if '0' ≤ c ∧ c ≤ '9' then some (c.toNat - '0'.toNat)
  else if 'a' ≤ c ∧ c ≤ 'f' then some (c.toNat - 'a'.toNat + 10)
  else if 'A' ≤ c ∧ c ≤ 'F' then some (c.toNat - 'A'.toNat + 10)
  else none

/-- The number that four hexadecimal digits write. -/
def unit? (a b c d : Char) : Option Nat := do
  return ((← hexValue? a) * 16 + (← hexValue? b)) * 256 + (← hexValue? c) * 16 + (← hexValue? d)

/-- The character that two surrogates write together. -/
def paired? (high low : Nat) : Option Char :=
  if 0xd800 ≤ high ∧ high < 0xdc00 ∧ 0xdc00 ≤ low ∧ low < 0xe000 then
    some (Char.ofNat (0x10000 + (high - 0xd800) * 0x400 + (low - 0xdc00)))
  else none

/-- The character of an escape; a surrogate without its partner is replaced. -/
def charOfUnit (u : Nat) : Char :=
  if 0xd800 ≤ u ∧ u < 0xe000 then '\ufffd' else Char.ofNat u

/-- The character behind a backslash, other than `u`. -/
def unescape? : Char → Option Char
  | '"'  => some '"'
  | '\\' => some '\\'
  | '/'  => some '/'
  | 'b'  => some '\x08'
  | 'f'  => some '\x0c'
  | 'n'  => some '\n'
  | 'r'  => some '\r'
  | 't'  => some '\t'
  | _    => none

/-- The character of an escape that begins `cs`, its `\u` taken off already, and the rest. -/
def unicodeEscape? : List Char → Option (Char × List Char)
  | a :: b :: c :: d :: cs => do
      let high ← unit? a b c d
      match cs with
      | '\\' :: 'u' :: e :: f :: g :: h :: rest =>
          match (unit? e f g h).bind (paired? high) with
          | some ch => return (ch, rest)
          | none    => return (charOfUnit high, cs)
      | _ => return (charOfUnit high, cs)
  | _ => none

/-- The characters up to the closing quote, and what follows it; `fuel` bounds their number. -/
def stringFrom : Nat → List Char → Option (List Char × List Char)
  | 0, _ => none
  | _ + 1, [] => none
  | _ + 1, '"' :: cs => some ([], cs)
  | fuel + 1, '\\' :: 'u' :: cs => do
      let (ch, rest) ← unicodeEscape? cs
      let (chars, rest) ← stringFrom fuel rest
      return (ch :: chars, rest)
  | fuel + 1, '\\' :: c :: cs => do
      let ch ← unescape? c
      let (chars, rest) ← stringFrom fuel cs
      return (ch :: chars, rest)
  | fuel + 1, c :: cs =>
      if c == '\\' || decide (c.toNat < 0x20) then none
      else do
        let (chars, rest) ← stringFrom fuel cs
        return (c :: chars, rest)

/-- A string whose opening quote has been read. -/
def string? (cs : List Char) : Option (String × List Char) :=
  (stringFrom (cs.length + 1) cs).map fun (chars, rest) => (String.ofList chars, rest)

/-! ### Numbers -/

/-- The digits before the point: a zero, or digits that do not begin with one. -/
def wholePart? : List Char → Option (List Char × List Char)
  | '0' :: cs => some (['0'], cs)
  | cs =>
      let ds := cs.takeWhile Text.isPlainDigit
      if ds.isEmpty then none else some (ds, cs.dropWhile Text.isPlainDigit)

/-- The point and the digits behind it, if both are there. -/
def places : List Char → List Char × List Char
  | '.' :: cs =>
      let ds := cs.takeWhile Text.isPlainDigit
      if ds.isEmpty then ([], '.' :: cs) else ('.' :: ds, cs.dropWhile Text.isPlainDigit)
  | cs => ([], cs)

/-- The power of ten, if its mark is followed by digits, with a sign or without. -/
def power : List Char → List Char × List Char
  | mark :: cs =>
      let sign := cs.take 1 |>.filter fun c => c == '+' || c == '-'
      let rest := cs.drop sign.length
      let ds := rest.takeWhile Text.isPlainDigit
      if (mark == 'e' || mark == 'E') && !ds.isEmpty then
        (mark :: sign ++ ds, rest.dropWhile Text.isPlainDigit)
      else ([], mark :: cs)
  | [] => ([], [])

/-- A number without its sign. Without point and power it is an integer, which may not have too
many digits. -/
def number? (negative : Bool) (cs : List Char) : Option (Json × List Char) := do
  let (whole, rest) ← wholePart? cs
  let (fraction, rest) := places rest
  let (exponent, rest) := power rest
  if fraction.isEmpty && exponent.isEmpty then
    if Decimal.digitLimit < whole.length then none
    else
      let n : Int := Decimal.ofDigits whole
      return (.int (if negative then -n else n), rest)
  else
    let d ← Decimal.scientific? (whole ++ fraction ++ exponent)
    return (.float (Decimal.nearest negative d), rest)

/-! ### Values -/

/-- A value that is one word or one number. -/
def scalar? (cs : List Char) : Option (Json × List Char) :=
  ((word? "null" cs).map (Json.null, ·)) <|>
  ((word? "true" cs).map (Json.bool true, ·)) <|>
  ((word? "false" cs).map (Json.bool false, ·)) <|>
  ((word? "NaN" cs).map (Json.float .nan, ·)) <|>
  ((word? "Infinity" cs).map (Json.float (.inf false), ·)) <|>
  ((word? "-Infinity" cs).map (Json.float (.inf true), ·)) <|>
  match cs with
  | '-' :: rest => number? true rest
  | _           => number? false cs

mutual

/-- The value at the front, and what follows it; `fuel` bounds the values still to be read and
the steps between them. -/
def valueFrom : Nat → List Char → Option (Json × List Char)
  | 0, _ => none
  | fuel + 1, cs =>
      match cs with
      | '"' :: rest => (string? rest).map fun (s, rest) => (.string s, rest)
      | '[' :: rest =>
          match skipGap rest with
          | ']' :: rest => some (.array [], rest)
          | rest        => (itemsFrom fuel rest).map fun (vs, rest) => (.array vs, rest)
      | '\x7b' :: rest =>
          match skipGap rest with
          | '\x7d' :: rest => some (.object [], rest)
          | rest           => (fieldsFrom fuel [] rest).map fun (fs, rest) => (.object fs, rest)
      | _ => scalar? cs

/-- The items up to the closing bracket, at least one. -/
def itemsFrom : Nat → List Char → Option (List Json × List Char)
  | 0, _ => none
  | fuel + 1, cs => do
      let (v, rest) ← valueFrom fuel cs
      match skipGap rest with
      | ']' :: rest => return ([v], rest)
      | ',' :: rest =>
          let (vs, rest) ← itemsFrom fuel (skipGap rest)
          return (v :: vs, rest)
      | _ => none

/-- The fields up to the closing brace, at least one, set one after another into those before. -/
def fieldsFrom : Nat → List (String × Json) → List Char → Option (List (String × Json) × List Char)
  | 0, _, _ => none
  | fuel + 1, before, cs => do
      match cs with
      | '"' :: rest =>
          let (name, rest) ← string? rest
          match skipGap rest with
          | ':' :: rest =>
              let (v, rest) ← valueFrom fuel (skipGap rest)
              let fields := setField name v before
              match skipGap rest with
              | '\x7d' :: rest => return (fields, rest)
              | ',' :: rest    => fieldsFrom fuel fields (skipGap rest)
              | _              => none
          | _ => none
      | _ => none

end

/-- The document that a text holds, with nothing but blanks around it. -/
def parse? (text : String) : Option Json :=
  let cs := skipGap text.toList
  match valueFrom (2 * cs.length + 1) cs with
  | some (v, rest) => if (skipGap rest).isEmpty then some v else none
  | none           => none

end Abacus.Json

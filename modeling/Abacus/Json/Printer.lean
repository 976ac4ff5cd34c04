import Abacus.Decimal.Lenient
import Abacus.Decimal.Literal
import Abacus.Json.Basic
import Abacus.Text.Quoted
/-!
# Abacus — Json — Printer

The text of a document: one line, a space behind each comma and colon, and no escapes but those
that the format asks for. Beside it stands the description of a value in messages.
-/

namespace Abacus.Json

/-! ### Documents -/

/-- One character of a string in a document. -/
def escaped (c : Char) : List Char :=
  if c == '"' then ['\\', '"']
  else if c == '\\' then ['\\', '\\']
  else if c == '\n' then ['\\', 'n']
  else if c == '\r' then ['\\', 'r']
  else if c == '\t' then ['\\', 't']
  else if c == '\x08' then ['\\', 'b']
  else if c == '\x0c' then ['\\', 'f']
  else if c.toNat < 0x20 then '\\' :: 'u' :: Text.hexDigits 4 c.toNat
  else [c]

def stringText (s : String) : List Char :=
  '"' :: s.toList.flatMap escaped ++ ['"']

def floatText : Binary64 → List Char
  | .nan   => "NaN".toList
  | .inf s => withSign s "Infinity".toList
  | x      => x.literal.toList

mutual

/-- The text of a value that a document can hold. -/
def text : Json → List Char
  | .null          => "null".toList
  | .bool b        => (if b then "true" else "false").toList
  | .int i         => Decimal.intDigits i
  | .float x       => floatText x
  | .string s      => stringText s
  | .array items   => '[' :: itemsText items ++ [']']
  | .object fields => '\x7b' :: fieldsText fields ++ ['\x7d']
  | .foreign       => []

def itemsText : List Json → List Char
  | []          => []
  | [v]         => text v
  | v :: w :: r => text v ++ ',' :: ' ' :: itemsText (w :: r)

def fieldsText : List (String × Json) → List Char
  | []               => []
  | [(n, v)]         => stringText n ++ ':' :: ' ' :: text v
  | (n, v) :: f :: r => stringText n ++ ':' :: ' ' :: text v ++ ',' :: ' ' :: fieldsText (f :: r)

end

mutual

/-- Whether a document can hold a value: nothing foreign in it, and no integer with more digits
than can be read again. -/
def isWritable : Json → Bool
  | .int i         => decide ((Decimal.digitsOf i.natAbs).length ≤ Decimal.digitLimit)
  | .array items   => itemsWritable items
  | .object fields => fieldsWritable fields
  | .foreign       => false
  | _              => true

def itemsWritable : List Json → Bool
  | []     => true
  | v :: r => isWritable v && itemsWritable r

def fieldsWritable : List (String × Json) → Bool
  | []          => true
  | (_, v) :: r => isWritable v && fieldsWritable r

end

/-- The text of a document, unless it holds a value that cannot be written. -/
def print? (doc : Json) : Option String :=
  if isWritable doc then some (String.ofList (text doc)) else none

/-! ### Descriptions -/

mutual

/-- A value as messages show it. -/
def described : Json → List Char
  | .null          => "None".toList
  | .bool b        => (if b then "True" else "False").toList
  | .int i         => Decimal.intDigits i
  | .float x       => x.literal.toList
  | .string s      => (Text.quoted s).toList
  | .array items   => '[' :: itemsDescribed items ++ [']']
  | .object fields => '\x7b' :: fieldsDescribed fields ++ ['\x7d']
  | .foreign       => "object".toList

def itemsDescribed : List Json → List Char
  | []          => []
  | [v]         => described v
  | v :: w :: r => described v ++ ',' :: ' ' :: itemsDescribed (w :: r)

def fieldsDescribed : List (String × Json) → List Char
  | []               => []
  | [(n, v)]         => (Text.quoted n).toList ++ ':' :: ' ' :: described v
  | (n, v) :: f :: r =>
      (Text.quoted n).toList ++ ':' :: ' ' :: described v ++ ',' :: ' ' :: fieldsDescribed (f :: r)

end

def description (v : Json) : String :=
  String.ofList (described v)

end Abacus.Json

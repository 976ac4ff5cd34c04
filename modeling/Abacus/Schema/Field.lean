import Abacus.Decimal.Grouped
import Abacus.Json.Basic
import Abacus.Schema.Issue
/-!
# Abacus — Schema — Field

The forms that single values can have, and the fields of an object. Numbers may be given as texts
and as truth values; texts are never anything but texts. Fields of other names are left alone.
-/

namespace Abacus

/-- How a value of some form is made of what was given. -/
abbrev Reader (α : Type) := Json → Except IssueKind α

namespace Reader

def text : Reader String
  | .string s => .ok s
  | _         => .error .notAText

/-- A text that is not empty. -/
def nonEmptyText : Reader String := fun v => do
  let s ← text v
  if s.isEmpty then .error .textTooShort else .ok s

/-- A text of one character. -/
def character : Reader Char := fun v => do
  match (← text v).toList with
  | []  => .error .textTooShort
  | [c] => .ok c
  | _   => .error .textTooLong

/-- Whole numbers of the size of a machine word; a greater one has to be given as an integer. -/
def fitsWord (x : Binary64) : Bool :=
  x.abs.lt (.ofInt (2 ^ 63))

def int : Reader Int
  | .bool b   => .ok (if b then 1 else 0)
  | .int i    => .ok i
  | .float x  =>
      if !x.isFinite then .error .notFinite
      else if !x.isIntegral then .error .fraction
      else if fitsWord x then .ok (x.truncate?.getD 0)
      else .error .integerTooLong
  | .string s =>
      match Decimal.groupedInt s with
      | .ok i                     => .ok i
      | .error .notAnInteger      => .error .unreadableInteger
      | .error (.tooManyDigits _) => .error .integerTooLong
  | _ => .error .notAnInteger

/-- An integer that is at least `least`. -/
def natFrom (least : Nat) : Reader Nat := fun v => do
  let i ← int v
  if i < least then .error .tooSmall else .ok i.toNat

/-- A number; an integer that is nearest to none of the finite ones counts as something else. -/
def number : Reader Binary64
  | .bool b   => .ok (.ofInt (if b then 1 else 0))
  | .int i    =>
      let x := Binary64.ofInt i
      if x.isFinite then .ok x else .error .notANumber
  | .float x  => .ok x
  | .string s =>
      match Decimal.groupedNumber? s with
      | some x => .ok x
      | none   => .error .unreadableNumber
  | _ => .error .notANumber

/-- One of the values that have a name. -/
def choice {α : Type} (ofName? : String → Option α) : Reader α
  | .string s =>
      match ofName? s with
      | some a => .ok a
      | none   => .error .noSuchChoice
  | _ => .error .noSuchChoice

/-- Nothing, or a value of the given form. -/
def orNull {α : Type} (read : Reader α) : Reader (Option α)
  | .null => .ok none
  | v     => (read v).map some

end Reader

namespace Checked

def ofReader {α : Type} (read : Reader α) (v : Json) : Checked α :=
  match read v with
  | .ok a    => .ok a
  | .error k => refuse k

/-- The field `name` of an object, which must be there. -/
def required {α : Type} (name : String) (read : Reader α) (v : Json) : Checked α :=
  under name <| match v.field? name with
    | some w => ofReader read w
    | none   => refuse .missing

/-- The field `name` of an object, or a value that stands in for it. -/
def optional {α : Type} (name : String) (standard : α) (read : Reader α) (v : Json) : Checked α :=
  match v.field? name with
  | some w => under name (ofReader read w)
  | none   => .ok standard

/-- Looks at the fields of an object; anything else is refused. -/
def ofObject {α : Type} (read : Json → Checked α) : Json → Checked α
  | .object fields => read (.object fields)
  | _              => refuse .notAnObject

end Checked

end Abacus

import Abacus.Binary64.Arithmetic
import Abacus.Decimal.Basic
/-!
# Abacus — Clock

Moments in microseconds since the epoch, their text in the calendar, and the identifiers that
entries take from them.
-/

namespace Abacus

/-- A clock that has been read `readings` times and moves by `step` from each reading to the
next. -/
structure Clock where
  start : Int
  step : Int
  readings : Nat
  deriving DecidableEq, Repr

namespace Clock

def still : Clock := ⟨0, 0, 0⟩

/-- The present reading. -/
def now (c : Clock) : Int :=
  c.start + c.readings * c.step

def next (c : Clock) : Clock :=
  { c with readings := c.readings + 1 }

end Clock

namespace Calendar

/-- Year, month and day of a day counted from the epoch, in the Gregorian calendar without end.
The count goes by eras of four hundred years that begin on the first of March. -/
def date (day : Int) : Int × Int × Int :=
  let z := day + 719468
  let era := z.fdiv 146097
  let dayOfEra := z - era * 146097
  let yearOfEra :=
    (dayOfEra - dayOfEra / 1460 + dayOfEra / 36524 - dayOfEra / 146096) / 365
  let dayOfYear := dayOfEra - (365 * yearOfEra + yearOfEra / 4 - yearOfEra / 100)
  let shifted := (5 * dayOfYear + 2) / 153
  let d := dayOfYear - (153 * shifted + 2) / 5 + 1
  let m := if shifted < 10 then shifted + 3 else shifted - 9
  let y := yearOfEra + era * 400 + (if m ≤ 2 then 1 else 0)
  (y, m, d)

/-- A number with at least `width` digits. -/
def padded (width : Nat) (n : Int) : String :=
  let ds := Decimal.intDigits n
  String.ofList (List.replicate (width - ds.length) '0' ++ ds)

/-- The whole milliseconds that have passed, counted toward the past. -/
def millis (us : Int) : Int :=
  us.fdiv 1000

/-- Date and time of day of a count of milliseconds. -/
def textOfMillis (ms : Int) : String :=
  let day := ms.fdiv 86400000
  let rest := ms - day * 86400000
  let (y, m, d) := date day
  padded 4 y ++ "-" ++ padded 2 m ++ "-" ++ padded 2 d ++ "T" ++
    padded 2 (rest / 3600000) ++ ":" ++ padded 2 (rest / 60000 % 60) ++ ":" ++
    padded 2 (rest / 1000 % 60) ++ "." ++ padded 3 (rest % 1000) ++ "Z"

/-- A moment to the millisecond, in universal time. -/
def timestamp (us : Int) : String :=
  textOfMillis (millis us)

end Calendar

namespace Identifier

/-- The milliseconds of a moment as the clock's seconds give them: the seconds are rounded to a
binary64 number, so is a thousand times that, and the fraction is dropped. -/
def millis (us : Int) : Int :=
  let seconds := Binary64.ofRatio (decide (us < 0)) us.natAbs 1000000
  (seconds.mul (.ofInt 1000)).truncate?.getD 0

/-- The identifier after `last` for a moment: its milliseconds, or one more than `last` if that
is greater. -/
def next (last : Nat) (us : Int) : Nat :=
  max (millis us).toNat (last + 1)

end Identifier

end Abacus

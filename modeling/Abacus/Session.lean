import Abacus.History
import Abacus.KeptPreferences
/-!
# Abacus — Session

A calculator in use: the text being typed, the preferences and the history.
-/

namespace Abacus

structure Session where
  buffer : String
  preferences : KeptPreferences
  history : KeptHistory

namespace Session

/-- What an untouched calculator shows. -/
def emptyBuffer : String := "0"

/-- How many entries are shown unless more or fewer are asked for. -/
def shownEntries : Int := 50

/-! ### Typing -/

/-- The buffer after more text; digits take the place of a lone zero. -/
def appended (buffer text : String) : String :=
  if buffer == emptyBuffer && Text.isDigits text.toList then text else buffer ++ text

/-- The buffer without its last character; one that would be empty shows a zero. -/
def shortened (buffer : String) : String :=
  match buffer.toList.dropLast with
  | [] => emptyBuffer
  | cs => String.ofList cs

def append (s : Session) (text : String) : Session :=
  { s with buffer := appended s.buffer text }

def backspace (s : Session) : Session :=
  { s with buffer := shortened s.buffer }

def clear (s : Session) : Session :=
  { s with buffer := emptyBuffer }

/-! ### Calculating -/

/-- Opens a session on the records of a directory, or in memory. -/
def openAt (directory : Option Path) : Attempt OpenFailure Session := do
  let store := directory.map RecordStore.mk
  let preferences ← KeptPreferences.openWith store
  let history ← ExceptT.adapt .file (KeptHistory.openStandard store)
  Desk.note .info
  return ⟨emptyBuffer, preferences, history⟩

/-- Calculates with the operators of arithmetic; a failure is noted. -/
def calculate (raw : String) : Attempt Stop Calculation := do
  match Abacus.calculate .arithmetic raw with
  | .error stop => throw stop
  | .ok c       =>
      if c.warning?.isSome then Desk.note .warning
      return c

def display (s : Session) (o : Outcome) : String :=
  o.display s.preferences.preferences.precision

/-- What the history says of an outcome: the number in full, or the failure's message. -/
def recorded (o : Outcome) : String :=
  match o.result with
  | .ok v    => v.display
  | .error k => k.message

/-- Evaluates a text and records it. -/
def evaluate (s : Session) (source : String) : Attempt Stop (Outcome × String × Session) := do
  let o := (← calculate source).outcome
  let (id, us) ← Desk.stamp
  let history ← s.history.record (.stamped id us source (recorded o))
  return (o, s.display o, { s with history := history })

/-- Puts a hundredth of the buffer's value into the buffer. A buffer without a value stays. -/
def percent (s : Session) : Attempt Stop (Outcome × Session) := do
  let o := (← calculate s.buffer).outcome
  match o.result with
  | .error _ => return (o, s)
  | .ok v    =>
      let scaled := v.div (.ofInt 100)
      return (⟨o.expression, .ok scaled⟩, { s with buffer := scaled.display })

end Session

end Abacus

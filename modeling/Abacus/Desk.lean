import Abacus.Clock
import Abacus.Files.Tree
/-!
# Abacus — Desk

What the calculator works on beside its own state: the files, the clock, the last identifier
given out, and the notices written for whoever keeps the log.
-/

namespace Abacus

inductive Level where
  | info
  | warning
  | error
  deriving DecidableEq, Repr

def Level.name : Level → String
  | .info    => "INFO"
  | .warning => "WARNING"
  | .error   => "ERROR"

/-- How the device gives out in a save that the files would allow: on the way, when it has gone so
many parts of it; before the record's file is opened; or while the file is written, when it has
taken so many bytes. -/
inductive Refusal where
  | making (parts : Nat)
  | opening
  | writing (bytes : Nat)
  deriving DecidableEq, Repr

/-- `refusals` says of the saves to come how the device refuses them, if it does; past its end none
is refused. -/
structure Desk where
  files : FileTree := .fresh
  refusals : List (Option Refusal) := []
  clock : Clock := .still
  lastId : Nat := 0
  notices : List Level := []

/-- Work at the desk that always comes to an end. -/
abbrev Work := StateM Desk

/-- Work at the desk that may fail; what it did until then stays done. -/
abbrev Attempt (ε : Type) := ExceptT ε Work

/-- A result that needs nothing of the desk. -/
def Attempt.of {ε α : Type} (r : Except ε α) : Attempt ε α :=
  ExceptT.mk (pure r)

namespace Desk

/-- Writes a notice. -/
def note (level : Level) : Work Unit :=
  modify fun d => { d with notices := d.notices ++ [level] }

/-- Reads the clock, which moves on, and gives out the next identifier. -/
def stamp : Work (Nat × Int) := do
  let d ← get
  let us := d.clock.now
  let id := Identifier.next d.lastId us
  set { d with clock := d.clock.next, lastId := id }
  return (id, us)

/-- How the device refuses the next save, if it does. -/
def takeRefusal : Work (Option Refusal) := do
  let d ← get
  set { d with refusals := d.refusals.tail }
  return d.refusals.head?.getD none

end Desk

end Abacus

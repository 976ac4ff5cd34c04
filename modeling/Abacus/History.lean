import Abacus.Entry
import Abacus.Records
/-!
# Abacus — History

The latest evaluations, newest first, as many as the capacity allows. A history may be kept in a
record store, where it is saved after each change.
-/

namespace Abacus

/-- Entries, newest first, no more than the capacity. -/
structure History where
  capacity : Nat
  entries : List Entry
  capacity_pos : 0 < capacity
  length_le : entries.length ≤ capacity

namespace History

def standardCapacity : Nat := 100

/-- The first entries of a list, as many as the capacity allows. -/
def ofList (capacity : Nat) (pos : 0 < capacity) (entries : List Entry) : History :=
  ⟨capacity, entries.take capacity, pos, List.length_take_le ..⟩

/-- Puts an entry in front; the oldest one goes if there are too many. -/
def push (h : History) (e : Entry) : History :=
  ofList h.capacity h.capacity_pos (e :: h.entries)

/-- The newest entries, all of them or up to a limit. -/
def recent (h : History) : Option Int → List Entry
  | none       => h.entries
  | some limit => h.entries.take limit.toNat

def length (h : History) : Nat :=
  h.entries.length

def toJson (h : History) : Json :=
  .array (h.entries.map Entry.toJson)

/-- The entries among the items of a document, and the number of items that are none. -/
def readItems : List Json → List Entry × Nat
  | []      => ([], 0)
  | v :: vs =>
      let (es, skipped) := readItems vs
      match Entry.ofJson v with
      | .ok e     => (e :: es, skipped)
      | .issues _ => (es, skipped + 1)

end History

/-- A history and where it is kept, if it is. -/
structure KeptHistory where
  history : History
  store : Option RecordStore

namespace KeptHistory

def key : String := "mini-calc:history"

/-- Makes a note for each of `n` items. -/
def warn : Nat → Work Unit
  | 0     => pure ()
  | n + 1 => do Desk.note .warning; warn n

/-- The entries of a stored document; what is no list counts as no entries. -/
def entriesOf (doc : Option Json) : Work (List Entry) :=
  match doc with
  | none => pure []
  | some (.array items) => do
      let (entries, skipped) := History.readItems items
      warn skipped
      return entries
  | some _ => do
      Desk.note .warning
      return []

/-- Opens a history of a given capacity with the entries that a store holds. -/
def openWith (capacity : Nat) (pos : 0 < capacity) (store : Option RecordStore) :
    Attempt FileFailure KeptHistory := do
  match store with
  | none   => return ⟨.ofList capacity pos [], none⟩
  | some s =>
      let doc ← s.load key
      let entries ← entriesOf doc
      return ⟨.ofList capacity pos entries, some s⟩

def openStandard (store : Option RecordStore) : Attempt FileFailure KeptHistory :=
  openWith History.standardCapacity (by decide) store

/-- Records an entry and saves the history. -/
def record (k : KeptHistory) (e : Entry) : Work KeptHistory := do
  let history := k.history.push e
  if let some s := k.store then
    let _ ← s.save key history.toJson
  return { k with history := history }

end KeptHistory

end Abacus

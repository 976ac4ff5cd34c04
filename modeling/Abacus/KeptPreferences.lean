import Abacus.Preferences
import Abacus.Records
/-!
# Abacus — KeptPreferences

Preferences that are saved in a record store after each change.
-/

namespace Abacus

/-- Preferences and where they are kept, if they are. -/
structure KeptPreferences where
  preferences : Preferences
  store : Option RecordStore

/-- Why a store's preferences cannot be opened. -/
inductive OpenFailure where
  | file (f : FileFailure)
  | infinitePrecision
  deriving DecidableEq, Repr

namespace KeptPreferences

def key : String := "mini-calc:settings"

/-- The preferences of a stored document; a missing or a malformed one gives the standard ones. -/
def preferencesOf (doc : Option Json) : Attempt OpenFailure Preferences :=
  match doc with
  | none   => return {}
  | some v =>
      match Preferences.ofJson v with
      | .ok p                      => return p
      | .error .infinitePrecision  => throw .infinitePrecision
      | .error _                   => do
          Desk.note .warning
          return {}

def openWith (store : Option RecordStore) : Attempt OpenFailure KeptPreferences := do
  match store with
  | none   => return ⟨{}, none⟩
  | some s =>
      let doc ← ExceptT.adapt .file (s.load key)
      return ⟨← preferencesOf doc, some s⟩

/-- Takes over changed preferences and saves them. -/
def keep (k : KeptPreferences) (p : Preferences) : Work KeptPreferences := do
  if let some s := k.store then
    let _ ← s.save key p.toJson
  return { k with preferences := p }

/-- A change that is refused leaves everything as it is. -/
def change (k : KeptPreferences) (next : Except PreferencesFailure Preferences) :
    Attempt PreferencesFailure KeptPreferences :=
  match next with
  | .ok p    => k.keep p
  | .error f => throw f

def chooseTheme (k : KeptPreferences) (v : Json) : Attempt PreferencesFailure KeptPreferences :=
  k.change (k.preferences.chooseTheme v)

def choosePrecision (k : KeptPreferences) (v : Json) : Attempt PreferencesFailure KeptPreferences :=
  k.change (k.preferences.choosePrecision v)

def switchTheme (k : KeptPreferences) : Work KeptPreferences :=
  k.keep k.preferences.switchTheme

end KeptPreferences

end Abacus

import Abacus.Display
import Abacus.Json.Whole
import Abacus.Schema.Field
/-!
# Abacus — Preferences

The theme and the display precision, how records of them are read, and the changes to them.
-/

namespace Abacus

inductive Theme where
  | light
  | dark
  deriving DecidableEq, Repr

namespace Theme

def name : Theme → String
  | .light => "light"
  | .dark  => "dark"

def ofName? : String → Option Theme
  | "light" => some .light
  | "dark"  => some .dark
  | _       => none

def other : Theme → Theme
  | .light => .dark
  | .dark  => .light

def ofJson? : Json → Option Theme
  | .string s => ofName? s
  | _         => none

end Theme

/-- Why a precision cannot be taken over: it stands for no whole number, or it is infinite, which
is no matter of form. -/
inductive PrecisionFailure where
  | notWhole
  | infinite
  deriving DecidableEq, Repr

/-- Any value that stands for a whole number is a precision, brought into range. -/
def Precision.ofJson (v : Json) : Except PrecisionFailure Precision :=
  match v.whole with
  | .ok i             => .ok (clamp i)
  | .error .infinite  => .error .infinite
  | .error _          => .error .notWhole

structure Preferences where
  theme : Theme := .light
  precision : Precision := .standard
  deriving DecidableEq, Repr

/-- Why a record or a change is refused. -/
inductive PreferencesFailure where
  | invalid (issues : List Issue)
  | infinitePrecision
  | notATheme (given : Json)

namespace Preferences

/-- An object with a theme and a precision, each of which may be missing. An infinite precision
is refused before anything else is reported. -/
def ofJson (v : Json) : Except PreferencesFailure Preferences :=
  match v with
  | .object fields =>
      let theme := Checked.optional "theme" .light (Reader.choice Theme.ofName?) v
      let build := fun p => (Preferences.mk <$> theme <*> p).toExcept.mapError .invalid
      match fields.lookup "precision" with
      | none   => build (.ok .standard)
      | some w =>
          match Precision.ofJson w with
          | .ok p              => build (.ok p)
          | .error .notWhole   => build (.issues [⟨["precision"], .ruleBroken⟩])
          | .error .infinite   => .error .infinitePrecision
  | _ => .error (.invalid [⟨[], .notAnObject⟩])

def toJson (p : Preferences) : Json :=
  .object [("theme", .string p.theme.name), ("precision", .int p.precision.places)]

def chooseTheme (p : Preferences) (v : Json) : Except PreferencesFailure Preferences :=
  match Theme.ofJson? v with
  | some t => .ok { p with theme := t }
  | none   => .error (.notATheme v)

def switchTheme (p : Preferences) : Preferences :=
  { p with theme := p.theme.other }

def choosePrecision (p : Preferences) (v : Json) : Except PreferencesFailure Preferences :=
  match Precision.ofJson v with
  | .ok q              => .ok { p with precision := q }
  | .error .notWhole   => .error (.invalid [⟨["precision"], .ruleBroken⟩])
  | .error .infinite   => .error .infinitePrecision

end Preferences

end Abacus

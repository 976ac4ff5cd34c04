import Abacus.CommandLine.Flag
import Abacus.Decimal.Lenient
import Abacus.Files.Tree
import Abacus.Preferences
/-!
# Abacus — CommandLine — Command

From arguments to a command: flags with their values, one expression, and the checks that the
values have to pass.
-/

namespace Abacus.CommandLine

/-- An end before any work is done: help that was asked for, or arguments that make no command. -/
inductive Ending where
  | help
  | usage
  deriving DecidableEq, Repr

def Ending.code : Ending → Nat
  | .help  => 0
  | .usage => 2

/-- The value of a flag. It is blank when all that was given for it is a separator. -/
inductive Given (α : Type) where
  | absent
  | blank
  | value (a : α)
  deriving DecidableEq, Repr

/-- What the arguments give, before it is checked. -/
structure Request where
  expression : Option String := none
  file : Given Path := .absent
  precision : Given Int := .absent
  theme : Given Theme := .absent
  history : Option Int := none
  dataDir : Given Path := .absent
  positionalDone : Bool := false
  leftOver : Bool := false

/-- A command whose values have been checked. -/
structure Command where
  expression : Option String
  file : Option Path
  precision : Option Precision
  theme : Option Theme
  history : Option Nat
  dataDir : Option Path
  deriving DecidableEq, Repr

/-- How many entries are printed when the flag gives no number. -/
def standardHistory : Int := 50

def integer (s : String) : Except Ending Int :=
  (Decimal.lenientInt s).mapError fun _ => .usage

/-- The value of a flag from its argument; a separator counts for nothing. -/
def given {α : Type} (read : String → Except Ending α) (arg : String) :
    Except Ending (Given α) :=
  if arg == "--" then .ok .blank else (read arg).map .value

/-- Takes a flag with its argument. -/
def Request.set (r : Request) (f : Flag) (arg : String) : Except Ending Request :=
  match f with
  | .help      => .error .help
  | .file      => do return { r with file := ← given (.ok <| Path.ofString ·) arg }
  | .precision => do return { r with precision := ← given integer arg }
  | .theme     => do
      let read := fun s => match Theme.ofName? s with
        | some t => .ok t
        | none   => .error .usage
      return { r with theme := ← given read arg }
  | .history   =>
      if arg == "--" then .ok { r with history := some standardHistory }
      else do return { r with history := some (← integer arg) }
  | .dataDir   => do return { r with dataDir := ← given (.ok <| Path.ofString ·) arg }

/-- Whether the letters behind a help letter make flags: each a help letter, or the last one a
flag with its value, which `valueFollows` says to be there. -/
def lettersFit (valueFollows : Bool) : List Char → Bool
  | []      => true
  | c :: cs =>
      match Flag.ofName? ['-', c] with
      | none       => false
      | some .help => lettersFit valueFollows cs
      | some _     => !cs.isEmpty || valueFollows

def followedByValue : List (String × Role) → Bool
  | (_, .value) :: _ => true
  | _                => false

/-- Goes through the arguments. The first value is the expression, with separators around it; what
fits nowhere is left over. -/
def Request.read (r : Request) : List (String × Role) → Except Ending Request
  | [] => .ok r
  | (_, .flag none _ _) :: rest => read { r with leftOver := true } rest
  | (_, .flag (some .help) long attached) :: rest =>
      match attached with
      | none    => .error .help
      | some cs =>
          if !long && !cs.isEmpty && lettersFit (followedByValue rest) cs then .error .help
          else .error .usage
  | (_, .flag (some f) _ (some cs)) :: rest => do
      let next ← r.set f (String.ofList cs)
      next.read rest
  | (_, .flag (some f) _ none) :: (a, .value) :: rest => do
      let next ← r.set f a
      next.read rest
  | (_, .flag (some f) _ none) :: rest =>
      if f = .history then read { r with history := some standardHistory } rest
      else .error .usage
  | (a, .value) :: rest =>
      if r.positionalDone then read { r with leftOver := true } rest
      else
        match rest with
        | (_, .separator) :: rest =>
            read { r with expression := some a, positionalDone := true } rest
        | rest => read { r with expression := some a, positionalDone := true } rest
  | (_, .separator) :: rest =>
      if r.positionalDone then read { r with leftOver := true } rest
      else
        match rest with
        | (a, .value) :: rest =>
            read { r with expression := some a, positionalDone := true } rest
        | rest => read { r with positionalDone := true } rest

/-- The value of a flag that is not blank. -/
def Given.toOption {α : Type} : Given α → Except Ending (Option α)
  | .absent  => .ok none
  | .blank   => .error .usage
  | .value a => .ok (some a)

/-- Why there is no command: an ending, or a file name that cannot even be looked for. -/
inductive Refusal where
  | ending (e : Ending)
  | file (f : FileFailure)
  deriving DecidableEq, Repr

/-- The precision of the command, which is not brought into range but has to be in it. -/
def checkPrecision : Option Int → Except Ending (Option Precision)
  | none   => .ok none
  | some i =>
      if h : 0 ≤ i ∧ i ≤ 12 then .ok (some ⟨i.toNat, by omega⟩) else .error .usage

def checkHistory : Option Int → Except Ending (Option Nat)
  | none   => .ok none
  | some i => if 0 ≤ i then .ok (some i.toNat) else .error .usage

/-- The input file, which has to be there. -/
def checkFile (t : FileTree) : Given Path → Except Refusal (Option Path)
  | .absent  => .ok none
  | .blank   => .error (.ending .usage)
  | .value p =>
      match t.isFile p with
      | .ok true   => .ok (some p)
      | .ok false  => .error (.ending .usage)
      | .error f   => .error (.file f)

/-- Checks a request. A file name that cannot be looked for comes before all other faults. -/
def Request.check (r : Request) (t : FileTree) : Except Refusal Command := do
  match checkFile t r.file with
  | .error (.file f) => throw (.file f)
  | file =>
      let usage := fun {α : Type} (x : Except Ending α) => x.mapError Refusal.ending
      return {
        expression := r.expression
        file := ← file
        precision := ← usage (checkPrecision (← usage r.precision.toOption))
        theme := ← usage r.theme.toOption
        history := ← usage (checkHistory r.history)
        dataDir := ← usage r.dataDir.toOption }

/-- What arguments ask for, if each of them has its place. -/
def Request.ofArguments (args : List String) : Except Ending Request := do
  match roles? args with
  | none       => throw .usage
  | some roles =>
      let r ← ({} : Request).read roles
      if r.leftOver then throw .usage
      return r

/-- The command that arguments make. -/
def Command.ofArguments (t : FileTree) (args : List String) : Except Refusal Command := do
  (← (Request.ofArguments args).mapError .ending).check t

end Abacus.CommandLine

import Abacus.Text.Character
/-!
# Abacus — CommandLine — Flag

The flags of the command, and how an argument is taken: as a value, as the mark behind which all
are values, or as a flag, named in full, by the beginning of a long name that fits no other, or by
its letter with the value right behind it.
-/

namespace Abacus.CommandLine

inductive Flag where
  | help
  | file
  | precision
  | theme
  | history
  | dataDir
  deriving DecidableEq, Repr

/-- All names of flags. -/
def Flag.names : List (String × Flag) :=
  [("-h", .help), ("--help", .help), ("-f", .file), ("--file", .file),
   ("-p", .precision), ("--precision", .precision), ("-t", .theme), ("--theme", .theme),
   ("--history", .history), ("--data-dir", .dataDir)]

def Flag.ofName? (name : List Char) : Option Flag :=
  names.lookup (String.ofList name)

/-- What an argument is taken for. A flag is none when no name fits; `long` tells the two dashes of
a long name, and `attached` is the value in the same argument. -/
inductive Role where
  | value
  | separator
  | flag (named : Option Flag) (long : Bool) (attached : Option (List Char))
  deriving DecidableEq, Repr

/-- Two dashes and more. -/
def isLong : List Char → Bool
  | '-' :: '-' :: _ => true
  | _               => false

/-- A negative number in digits of any script, with at most one point, a line end allowed behind
it. -/
def isNegativeNumber : List Char → Bool
  | '-' :: cs =>
      let ds := if cs.getLast? == some '\n' then cs.dropLast else cs
      let isDecimal := fun c => (Text.decimalValue? c).isSome
      match ds.dropWhile isDecimal with
      | []        => !ds.isEmpty
      | c :: rest => c == '.' && !rest.isEmpty && rest.all isDecimal
  | _ => false

/-- The argument up to its first equals sign, and what is behind that. -/
def splitEquals (cs : List Char) : List Char × Option (List Char) :=
  match cs.dropWhile (· != '=') with
  | []        => (cs, none)
  | _ :: rest => (cs.takeWhile (· != '='), some rest)

/-- The readings of an argument that gives a name in part: a long one by its beginning, a short
one as a letter with its value behind it. -/
def partialReadings (cs : List Char) : List Role :=
  if isLong cs then
    let (start, attached) := splitEquals cs
    (Flag.names.filter fun n => start.isPrefixOf n.1.toList).map fun n =>
      .flag (some n.2) true attached
  else
    Flag.names.filterMap fun n =>
      if n.1.toList == cs.take 2 then some (.flag (some n.2) false (some (cs.drop 2)))
      else if cs.isPrefixOf n.1.toList then some (.flag (some n.2) (isLong n.1.toList) none)
      else none

/-- What one argument before any separator is taken for; nothing if it could be several flags. -/
def roleOf? (cs : List Char) : Option Role :=
  match cs with
  | '-' :: _ :: _ =>
      let (name, attached) := splitEquals cs
      match Flag.ofName? cs, Flag.ofName? name with
      | some f, _    => some (.flag (some f) (isLong cs) none)
      | none, some f => some (.flag (some f) (isLong cs) attached)
      | none, none   =>
          match partialReadings cs with
          | _ :: _ :: _ => none
          | [r]         => some r
          | []          =>
              if isNegativeNumber cs || cs.contains ' ' then some .value
              else some (.flag none (isLong cs) none)
  | _ => some .value

/-- The arguments with their roles; behind the first separator all are values. -/
def roles? : List String → Option (List (String × Role))
  | [] => some []
  | a :: rest =>
      if a == "--" then some ((a, .separator) :: rest.map (·, .value))
      else do
        let r ← roleOf? a.toList
        let rs ← roles? rest
        return (a, r) :: rs

end Abacus.CommandLine

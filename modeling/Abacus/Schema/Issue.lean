/-!
# Abacus — Schema — Issue

What is wrong with a value that was to have a given form: where, and which rule it breaks. A form
with several fields reports the issues of all of them, in the order of the fields.
-/

namespace Abacus

inductive IssueKind where
  | missing
  | notAText
  | textTooShort
  | textTooLong
  | notAnInteger
  | unreadableInteger
  | integerTooLong
  | fraction
  | notFinite
  | tooSmall
  | notANumber
  | unreadableNumber
  | noSuchChoice
  | notAFunction
  | notAnObject
  | notTagged
  | tagMissing
  | tagUnknown
  | ruleBroken
  deriving DecidableEq, Repr

/-- The name under which an issue is reported. -/
def IssueKind.name : IssueKind → String
  | .missing           => "missing"
  | .notAText          => "string_type"
  | .textTooShort      => "string_too_short"
  | .textTooLong       => "string_too_long"
  | .notAnInteger      => "int_type"
  | .unreadableInteger => "int_parsing"
  | .integerTooLong    => "int_parsing_size"
  | .fraction          => "int_from_float"
  | .notFinite         => "finite_number"
  | .tooSmall          => "greater_than_equal"
  | .notANumber        => "float_type"
  | .unreadableNumber  => "float_parsing"
  | .noSuchChoice      => "enum"
  | .notAFunction      => "callable_type"
  | .notAnObject       => "model_type"
  | .notTagged         => "model_attributes_type"
  | .tagMissing        => "union_tag_not_found"
  | .tagUnknown        => "union_tag_invalid"
  | .ruleBroken        => "value_error"

/-- A broken rule and the way to the value that breaks it. -/
structure Issue where
  location : List String
  kind : IssueKind
  deriving DecidableEq, Repr

/-- A value of the wanted form, or all that is wrong with what was given. -/
inductive Checked (α : Type) where
  | ok (a : α)
  | issues (is : List Issue)

namespace Checked

/-- Issues on both sides are reported one after the other. -/
def seq {α β : Type} : Checked (α → β) → Checked α → Checked β
  | .ok f, .ok a             => .ok (f a)
  | .ok _, .issues is        => .issues is
  | .issues is, .ok _        => .issues is
  | .issues is, .issues js   => .issues (is ++ js)

instance : Applicative Checked where
  pure := .ok
  seq f a := Checked.seq f (a ())

def toExcept {α : Type} : Checked α → Except (List Issue) α
  | .ok a      => .ok a
  | .issues is => .error is

/-- Puts a step in front of the location of every issue. -/
def under {α : Type} (step : String) : Checked α → Checked α
  | .ok a      => .ok a
  | .issues is => .issues (is.map fun i => ⟨step :: i.location, i.kind⟩)

/-- A value that breaks a rule as a whole. -/
def refuse {α : Type} (kind : IssueKind) : Checked α :=
  .issues [⟨[], kind⟩]

end Checked

end Abacus

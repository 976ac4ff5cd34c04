import Abacus.Clock
import Abacus.Schema.Field
/-!
# Abacus — Entry

One recorded evaluation.
-/

namespace Abacus

structure Entry where
  id : String
  expression : String
  result : String
  timestamp : String
  deriving DecidableEq, Repr

namespace Entry

/-- An object with the four texts, the identifier not empty. -/
def ofJson : Json → Checked Entry :=
  Checked.ofObject fun v =>
    Entry.mk
      <$> Checked.required "id" Reader.nonEmptyText v
      <*> Checked.required "expression" Reader.text v
      <*> Checked.required "result" Reader.text v
      <*> Checked.required "timestamp" Reader.text v

def toJson (e : Entry) : Json :=
  .object [("id", .string e.id), ("expression", .string e.expression),
    ("result", .string e.result), ("timestamp", .string e.timestamp)]

/-- The entry of an evaluation at a moment, under an identifier. -/
def stamped (id : Nat) (us : Int) (expression result : String) : Entry :=
  ⟨String.ofList (Decimal.digitsOf id), expression, result, Calendar.timestamp us⟩

end Entry

end Abacus

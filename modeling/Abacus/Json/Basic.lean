import Abacus.Binary64.Basic
/-!
# Abacus — Json — Basic

The values of stored documents and of settings as they come in. Whole numbers are exact and kept
apart from binary64 numbers; an object keeps its fields in order.
-/

namespace Abacus

inductive Json where
  | null
  | bool (b : Bool)
  | int (i : Int)
  | float (x : Binary64)
  | string (s : String)
  | array (items : List Json)
  | object (fields : List (String × Json))
  /-- A value that no document can hold. -/
  | foreign

namespace Json

instance : Inhabited Json := ⟨.null⟩

/-- Sets a field: a name that has come before keeps its place and takes the new value. -/
def setField (name : String) (value : Json) : List (String × Json) → List (String × Json)
  | [] => [(name, value)]
  | (n, v) :: fields =>
      if n == name then (n, value) :: fields else (n, v) :: setField name value fields

/-- The field `name` of an object. -/
def field? (name : String) : Json → Option Json
  | .object fields => fields.lookup name
  | _              => none

end Json

end Abacus

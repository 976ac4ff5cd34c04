import Abacus.Binary64.Rounding
import Abacus.Json.Printer
/-!
# Abacus — Json — Whole

The whole number that a value of any kind stands for: numbers lose their fraction, texts are read
as integers, truth counts as one.
-/

namespace Abacus

inductive WholeFailure where
  | wrongKind
  | notAnInteger (text : String)
  | tooManyDigits (count : Nat)
  | notANumber
  | infinite
  deriving DecidableEq, Repr

/-- The wording, for the failures that a text or a number can have; what is quoted is cut to two
hundred characters. -/
def WholeFailure.message : WholeFailure → String
  | .wrongKind       => "not a number or a text"
  | .notAnInteger s  =>
      "invalid literal for int() with base 10: " ++
        String.ofList ((Text.quoted s).toList.take 200)
  | .tooManyDigits n =>
      "Exceeds the limit (" ++ toString Decimal.digitLimit ++
        " digits) for integer string conversion: value has " ++ toString n ++
        " digits; use sys.set_int_max_str_digits() to increase the limit"
  | .notANumber      => "cannot convert float NaN to integer"
  | .infinite        => "cannot convert float infinity to integer"

def Json.whole : Json → Except WholeFailure Int
  | .bool b   => .ok (if b then 1 else 0)
  | .int i    => .ok i
  | .float x  =>
      match x with
      | .nan   => .error .notANumber
      | .inf _ => .error .infinite
      | x      => .ok (x.truncate?.getD 0)
  | .string s =>
      match Decimal.lenientInt s with
      | .ok i                      => .ok i
      | .error .notAnInteger       => .error (.notAnInteger s)
      | .error (.tooManyDigits n)  => .error (.tooManyDigits n)
  | _ => .error .wrongKind

end Abacus

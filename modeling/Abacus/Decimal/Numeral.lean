import Abacus.Binary64.Rounding
import Abacus.Decimal.Basic
import Abacus.Text.Character
/-!
# Abacus — Decimal — Numeral

Reading written numbers: digits with at most one point among them, and the same with a sign or an
exponent.
-/

namespace Abacus

namespace Decimal

/-- The whole number that digits write. -/
def ofDigits (ds : List Char) : Nat :=
  Nat.ofDigitChars 10 ds 0

/-- Digits with at most one point before, among or after them, and one digit at least. -/
def fixed? (cs : List Char) : Option Decimal :=
  let whole := cs.takeWhile Text.isPlainDigit
  match cs.dropWhile Text.isPlainDigit with
  | [] => if whole.isEmpty then none else some ⟨ofDigits whole, 0⟩
  | c :: places =>
      if c == '.' && places.all Text.isPlainDigit && !(whole.isEmpty && places.isEmpty) then
        some ⟨ofDigits (whole ++ places), -(places.length : Int)⟩
      else none

/-- Takes a leading sign off; `true` stands for a minus. -/
def splitSign : List Char → Bool × List Char
  | '-' :: cs => (true, cs)
  | '+' :: cs => (false, cs)
  | cs        => (false, cs)

/-- A whole number of plain digits with an optional sign. -/
def signedDigits? (cs : List Char) : Option Int :=
  let (negative, ds) := splitSign cs
  if ds.isEmpty || !ds.all Text.isPlainDigit then none
  else some (if negative then -(ofDigits ds : Int) else ofDigits ds)

/-- `fixed?`, with an optional `e` or `E` and a power of ten behind it. -/
def scientific? (cs : List Char) : Option Decimal :=
  let isMark := fun c => c == 'e' || c == 'E'
  match cs.dropWhile (!isMark ·) with
  | [] => fixed? cs
  | _ :: power => do
      let d ← fixed? (cs.takeWhile (!isMark ·))
      let e ← signedDigits? power
      return ⟨d.digits, d.exponent + e⟩

/-- The binary64 number nearest to `± d`. -/
def nearest (negative : Bool) (d : Decimal) : Binary64 :=
  .ofDecimal negative d.digits d.exponent

end Decimal

/-- The number that an optionally signed `fixed?` numeral writes. -/
def Binary64.ofFixed? (cs : List Char) : Option Binary64 :=
  let (negative, ds) := Decimal.splitSign cs
  (Decimal.fixed? ds).map (Decimal.nearest negative)

/-- The number that an optionally signed `scientific?` numeral writes. -/
def Binary64.ofScientific? (cs : List Char) : Option Binary64 :=
  let (negative, ds) := Decimal.splitSign cs
  (Decimal.scientific? ds).map (Decimal.nearest negative)

end Abacus

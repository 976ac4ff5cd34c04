import Abacus.Binary64.Rounding
import Abacus.Decimal.Literal
import Abacus.Expression.Calculation
/-!
# Abacus — Display

How numbers are shown: in full, or rounded to a number of places. Rounding works on the exact
value and takes a half away from zero.
-/

namespace Abacus

/-- How many places are shown after the point. -/
structure Precision where
  places : Nat
  places_le : places ≤ 12 := by omega
  deriving DecidableEq, Repr

namespace Precision

def standard : Precision := ⟨6, by omega⟩

/-- The nearest number of places that can be shown. -/
def clamp (n : Int) : Precision :=
  ⟨min n.toNat 12, Nat.min_le_right ..⟩

end Precision

/-- `num / den` to the nearest whole number, a half going up. -/
def divRoundUp (num den : Nat) : Nat :=
  (2 * num + den) / (2 * den)

namespace Decimal

/-- The exponent of the leading digit of the positive `num / den`. -/
def leadingPlace (num den : Nat) : Int :=
  if den ≤ num then ((digitsOf (num / den)).length : Int) - 1
  else -((digitsOf ((den - 1) / num)).length : Int)

/-- `num / den` to the nearest multiple of `10 ^ place`. -/
def roundedTo (num den : Nat) (place : Int) : Decimal :=
  ⟨divRoundUp (num * 10 ^ (-place).toNat) (den * 10 ^ place.toNat), place⟩

/-- The most digits that a decimal of so many places may have. -/
def contextDigits : Nat := 28

/-- `num / den` to the nearest multiple of `10 ^ place`, refused if it has too many digits. -/
def quantize? (num den : Nat) (place : Int) : Option Decimal :=
  let d := roundedTo num den place
  if (digitsOf d.digits).length ≤ contextDigits then some d else none

/-- The positive `num / den` rounded to `count + 1` digits. A carry into one digit more moves the
place up. -/
def toDigits (num den count : Nat) : Decimal :=
  let place := leadingPlace num den - count
  let d := roundedTo num den place
  if d.digits = 10 ^ (count + 1) then ⟨10 ^ count, place + 1⟩ else d

end Decimal

namespace Binary64

/-- Numbers from here on are shown with an exponent when in full. -/
def fullFrom : Binary64 := ofDecimal false 1 (-6)

def fullBelow : Binary64 := ofDecimal false 1 21

/-- Whole numbers below this one are exact to the unit and are shown to the unit. -/
def exactBelow : Binary64 := ofInt (2 ^ 53)

/-- Rounded numbers from here on are shown with an exponent. -/
def roundedBelow : Binary64 := ofDecimal false 1 12

/-- A finite number in full: a whole number without a point, others with the shortest digits that
read back, and an exponent only below `1e-6` and from `1e21` on. -/
def fullText (v : Binary64) (negative : Bool) (m : Nat) (e : Int) : List Char :=
  let size := v.abs
  if v.isIntegral && size.lt exactBelow then Decimal.intDigits (v.truncate?.getD 0)
  else
    let d := Decimal.shortestOf m e
    withSign negative (if !size.lt fullFrom && size.lt fullBelow then d.positional
      else d.scientific 1)

/-- A number in full. -/
def display (v : Binary64) : String :=
  match v with
  | .nan            => "NaN"
  | .inf s          => if s then "-Infinity" else "Infinity"
  | .finite s m e _ => String.ofList (fullText v s m e)

/-- A finite number rounded to a number of places, by way of a decimal that may be refused. -/
def fixedText? (places : Nat) : Binary64 → Option String
  | .finite s m e _ =>
      (Decimal.quantize? (m * 2 ^ e.toNat) (2 ^ (-e).toNat) (-(places : Int))).map fun d =>
        (ofDecimal s d.digits d.exponent).display
  | _ => none

/-- A number as a result is shown: whole numbers in full, the very large and the very small with
an exponent and one digit less than the precision after the point, all others rounded to the
precision. What is rounded to places here is below `roundedBelow`, so its decimal is not refused. -/
def displayRounded (precision : Precision) (v : Binary64) : String :=
  match v with
  | .finite s m e _ =>
      let num := m * 2 ^ e.toNat
      let den := 2 ^ (-e).toNat
      let size := v.abs
      if v.isIntegral then v.display
      else if !size.lt roundedBelow || size.lt fullFrom then
        String.ofList (withSign s ((Decimal.toDigits num den (precision.places - 1)).scientific 1))
      else (v.fixedText? precision.places).getD v.display
  | _ => v.display

end Binary64

/-- An outcome as it is shown: the number rounded, or the failure's message. -/
def Outcome.display (precision : Precision) (o : Outcome) : String :=
  match o.result with
  | .ok v    => v.displayRounded precision
  | .error k => k.message

end Abacus

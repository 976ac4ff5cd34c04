/-!
# Abacus — Decimal — Basic

Decimal numbers as a whole number of units of a power of ten, and their two ways of being laid
out: in full, or as a leading digit with an exponent.
-/

namespace Abacus

/-- `digits · 10 ^ exponent`. -/
structure Decimal where
  digits : Nat
  exponent : Int
  deriving DecidableEq, Repr

namespace Decimal

/-- The digits of a whole number, most significant first. -/
def digitsOf (n : Nat) : List Char :=
  Nat.toDigits 10 n

/-- The text of a whole number, a minus before a negative one. -/
def intDigits (i : Int) : List Char :=
  if i < 0 then '-' :: digitsOf i.natAbs else digitsOf i.natAbs

/-- The digits `ds` with the point `places` digits from the right, at least one digit before it.
With no places there is no point. -/
def withPoint (ds : List Char) (places : Nat) : List Char :=
  if places = 0 then ds
  else
    let padded := List.replicate (places + 1 - ds.length) '0' ++ ds
    padded.take (padded.length - places) ++ '.' :: padded.drop (padded.length - places)

/-- In full: zeros fill up to the units or down from the point. -/
def positional (d : Decimal) : List Char :=
  withPoint (digitsOf d.digits ++ List.replicate d.exponent.toNat '0') (-d.exponent).toNat

/-- The exponent of the leading digit. -/
def leadingExponent (d : Decimal) : Int :=
  d.exponent + (digitsOf d.digits).length - 1

/-- One digit, the others after a point, and the exponent with its sign and at least `width`
digits. -/
def scientific (width : Nat) (d : Decimal) : List Char :=
  let ds := digitsOf d.digits
  let e := d.leadingExponent
  let size := digitsOf e.natAbs
  withPoint ds (ds.length - 1) ++
    'e' :: (if e < 0 then '-' else '+') :: (List.replicate (width - size.length) '0' ++ size)

end Decimal

end Abacus

import Abacus.Binary64.Basic
/-!
# Abacus — Binary64 — Rounding

The binary64 number nearest to a fraction, a tie going to the even mantissa. Every operation is
this rounding of an exact result.
-/

namespace Abacus

/-- `num / den` to the nearest whole number, a half going to the even neighbour. -/
def divRoundEven (num den : Nat) : Nat :=
  if 2 * (num % den) < den then num / den
  else if den < 2 * (num % den) then num / den + 1
  else num / den + num / den % 2

/-- The exponent of the leading bit of `num / den`, so that
`2 ^ leadingBit ≤ num / den < 2 ^ (leadingBit + 1)`. -/
def leadingBit (num den : Nat) : Int :=
  let k : Int := (num.log2 : Int) - den.log2
  if den * 2 ^ k.toNat ≤ num * 2 ^ (-k).toNat then k else k - 1

namespace Binary64

/-- The exponent of the last bit that is kept of `num / den`. -/
def lastBit (num den : Nat) : Int :=
  max (leadingBit num den - 52) (-1074)

/-- `± m · 2 ^ e` for a mantissa of 53 bits, or for the power of two that one more would make;
what is too large is infinite. -/
def ofRounded (negative : Bool) (m : Nat) (e : Int) : Binary64 :=
  if m = 2 ^ 53 then
    if h : Canonical (2 ^ 52) (e + 1) then .finite negative (2 ^ 52) (e + 1) h else .inf negative
  else
    if h : Canonical m e then .finite negative m e h else .inf negative

/-- The number nearest to `± num / den`. -/
def ofRatio (negative : Bool) (num den : Nat) : Binary64 :=
  if num = 0 then zero negative
  else
    let e := lastBit num den
    ofRounded negative (divRoundEven (num * 2 ^ (-e).toNat) (den * 2 ^ e.toNat)) e

/-- The number nearest to `± n · 2 ^ e`. -/
def ofScaled (negative : Bool) (n : Nat) (e : Int) : Binary64 :=
  ofRatio negative (n * 2 ^ e.toNat) (2 ^ (-e).toNat)

/-- The number nearest to a whole number. -/
def ofInt (i : Int) : Binary64 :=
  ofRatio (decide (i < 0)) i.natAbs 1

/-- The number nearest to `± digits · 10 ^ exponent`. From `10 ^ 400` on all is infinite and
below `10 ^ (-399)` all is zero, so that no power beyond these is ever formed. -/
def ofDecimal (negative : Bool) (digits : Nat) (exponent : Int) : Binary64 :=
  if digits = 0 then zero negative
  else if 400 ≤ exponent then .inf negative
  else if exponent + digits.log2 ≤ -400 then zero negative
  else ofRatio negative (digits * 10 ^ exponent.toNat) (10 ^ (-exponent).toNat)

end Binary64

end Abacus

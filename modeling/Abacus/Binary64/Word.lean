import Abacus.Binary64.Basic
/-!
# Abacus — Binary64 — Word

The interchange format: one sign bit, eleven exponent bits, fifty-two fraction bits. All
not-a-numbers read as the one, which is written with only the top fraction bit set.
-/

namespace Abacus.Binary64

/-- The magnitude part of a finite number's word: a full mantissa of 53 bits overlaps the lowest
exponent bit, which counts it. -/
def magnitudeWord (m : Nat) (e : Int) : Nat :=
  m + (e + 1074).toNat * 2 ^ 52

def toWord : Binary64 → Nat
  | .nan            => 0x7ff8000000000000
  | .inf s          => (if s then 2 ^ 63 else 0) + 0x7ff0000000000000
  | .finite s m e _ => (if s then 2 ^ 63 else 0) + magnitudeWord m e

def ofWord (w : Nat) : Binary64 :=
  let negative := decide (w / 2 ^ 63 % 2 = 1)
  let biased : Nat := w / 2 ^ 52 % 2 ^ 11
  let fraction : Nat := w % 2 ^ 52
  if biased = 2047 then (if fraction = 0 then .inf negative else .nan)
  else
    let m := if biased = 0 then fraction else 2 ^ 52 + fraction
    let e : Int := if biased = 0 then -1074 else (biased : Int) - 1075
    if h : Canonical m e then .finite negative m e h else .nan

end Abacus.Binary64

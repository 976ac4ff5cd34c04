import Abacus.Binary64.Basic
import Abacus.Decimal.Basic
/-!
# Abacus — Decimal — Shortest

The decimal with the fewest digits that reads back as a given binary64 number, and the nearest
of those. The grids `10 ^ g` are tried from coarse to fine; the first that has a point close
enough to the number gives the digits.
-/

namespace Abacus.Decimal

/-- A positive `mantissa · 2 ^ exponent` as a fraction, its numerator and half of its distance to
the next number on either side counted in quarters of the last bit. -/
structure Neighbourhood where
  value : Nat
  below : Nat
  above : Nat
  unit : Nat
  closed : Bool

/-- The numbers that round to `m · 2 ^ e` reach half a last bit up and half a last bit down, or a
quarter down from a power of two; the ends belong to an even mantissa. -/
def Neighbourhood.of (m : Nat) (e : Int) : Neighbourhood where
  value := 4 * m * 2 ^ e.toNat
  below := (if m = 2 ^ 52 ∧ -1074 < e then 1 else 2) * 2 ^ e.toNat
  above := 2 * 2 ^ e.toNat
  unit := 4 * 2 ^ (-e).toNat
  closed := m % 2 == 0

namespace Neighbourhood

/-- Whether `n · 10 ^ g` rounds to the number. -/
def contains (v : Neighbourhood) (n : Nat) (g : Int) : Bool :=
  let point := n * 10 ^ g.toNat * v.unit
  let low := (v.value - v.below) * 10 ^ (-g).toNat
  let high := (v.value + v.above) * 10 ^ (-g).toNat
  if v.closed then decide (low ≤ point ∧ point ≤ high) else decide (low < point ∧ point < high)

/-- The last grid point at or below the number. -/
def floorOn (v : Neighbourhood) (g : Int) : Nat :=
  v.value * 10 ^ (-g).toNat / (v.unit * 10 ^ g.toNat)

/-- Whether the number is nearer to the grid point after `n` than to `n`, a tie going to the even
one. -/
def prefersNext (v : Neighbourhood) (n : Nat) (g : Int) : Bool :=
  let twice := 2 * (v.value * 10 ^ (-g).toNat)
  let middle := (2 * n + 1) * (v.unit * 10 ^ g.toNat)
  decide (middle < twice) || (decide (middle = twice) && n % 2 == 1)

/-- The grid point that rounds to the number, the nearer one if both neighbours do. -/
def onGrid (v : Neighbourhood) (g : Int) : Option Nat :=
  let n := v.floorOn g
  match v.contains n g, v.contains (n + 1) g with
  | true, true   => some (if v.prefersNext n g then n + 1 else n)
  | true, false  => some n
  | false, true  => some (n + 1)
  | false, false => none

/-- The first hit from the grid `10 ^ g` on, with `finer` grids still to come; on the last of them
the number itself lies. -/
def firstHit (v : Neighbourhood) (g : Int) : Nat → Decimal
  | 0 => ⟨v.floorOn g, g⟩
  | finer + 1 =>
      match v.onGrid g with
      | some n => ⟨n, g⟩
      | none   => firstHit v (g - 1) finer

end Neighbourhood

/-- An exponent with `2 · m · 2 ^ e ≤ 10 ^ coarsest m e`: no grid this coarse has a point close to
the number. -/
def coarsest (m : Nat) (e : Int) : Int :=
  ((m * 2 ^ e.toNat / 2 ^ (-e).toNat).log2 + 2) / 3 + 1

/-- The shortest decimal that reads back as the positive `m · 2 ^ e`. -/
def shortest (m : Nat) (e : Int) : Decimal :=
  (Neighbourhood.of m e).firstHit (coarsest m e) (coarsest m e - min e 0).toNat

end Abacus.Decimal

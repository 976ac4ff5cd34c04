/-!
# Abacus — Binary64 — Basic

The numbers of the calculator: IEEE 754 double precision, each finite one kept as the exact
`± mantissa · 2 ^ exponent`, so that equality of two values is equality of their words.
There is one not-a-number.
-/

namespace Abacus

-- powers of natural numbers are those of `Nat`, also beside a library that has its own
attribute [default_instance 10001, instance (high)] instPowNat

/-- The one way in which binary64 writes `mantissa · 2 ^ exponent`: at most 53 bits, and all
53 of them in use unless the exponent is already the least. -/
def Canonical (mantissa : Nat) (exponent : Int) : Prop :=
  mantissa < 2 ^ 53 ∧ -1074 ≤ exponent ∧ exponent ≤ 971 ∧
    (2 ^ 52 ≤ mantissa ∨ exponent = -1074)

instance (mantissa : Nat) (exponent : Int) : Decidable (Canonical mantissa exponent) :=
  inferInstanceAs (Decidable (_ ∧ _))

inductive Binary64 where
  | nan
  | inf (negative : Bool)
  | finite (negative : Bool) (mantissa : Nat) (exponent : Int)
      (canonical : Canonical mantissa exponent)
  deriving DecidableEq

namespace Binary64

/-- The two zeros. -/
def zero (negative : Bool) : Binary64 :=
  .finite negative 0 (-1074) (by decide)

instance : Inhabited Binary64 := ⟨zero false⟩

def neg : Binary64 → Binary64
  | .nan            => .nan
  | .inf s          => .inf (!s)
  | .finite s m e h => .finite (!s) m e h

def abs : Binary64 → Binary64
  | .nan            => .nan
  | .inf _          => .inf false
  | .finite _ m e h => .finite false m e h

def isNegative : Binary64 → Bool
  | .nan            => false
  | .inf s          => s
  | .finite s _ _ _ => s

def isFinite : Binary64 → Bool
  | .finite .. => true
  | _          => false

/-- Either zero. -/
def isZero : Binary64 → Bool
  | .finite _ m _ _ => m == 0
  | _               => false

/-- `m · 2 ^ (e - low)`: a mantissa counted in units of `2 ^ low`, for `low ≤ e`. -/
def scaled (m : Nat) (e low : Int) : Nat :=
  m * 2 ^ (e - low).toNat

/-- The signed count of units `2 ^ low` in a finite number, for `low` at most its exponent. -/
def signedUnits (negative : Bool) (m : Nat) (e low : Int) : Int :=
  if negative then -(scaled m e low : Int) else scaled m e low

/-- Numerical order; nothing is below or above not-a-number, and the two zeros are level. -/
def lt : Binary64 → Binary64 → Bool
  | .nan, _ => false
  | _, .nan => false
  | .inf s, .inf t => s && !t
  | .inf s, .finite .. => s
  | .finite .., .inf t => !t
  | .finite s m e _, .finite t n f _ =>
      decide (signedUnits s m e (min e f) < signedUnits t n f (min e f))

/-- Whether a finite number is a whole number. -/
def isIntegral : Binary64 → Bool
  | .finite _ m e _ => m % 2 ^ (-e).toNat == 0
  | _               => false

/-- The whole number next to a finite one on the side of zero. -/
def truncate? : Binary64 → Option Int
  | .finite s m e _ =>
      let magnitude : Nat := m * 2 ^ e.toNat / 2 ^ (-e).toNat
      some (if s then -(magnitude : Int) else magnitude)
  | _ => none

end Binary64

end Abacus

import Abacus.Decimal.Shortest
/-!
# Abacus — Decimal — Literal

The exact text of a binary64 number in messages and stored documents: its shortest digits, in
full from `1e-4` to below `1e16` and with an exponent elsewhere, always marked as a number that
need not be whole.
-/

namespace Abacus

/-- The shortest decimal that reads back as `m · 2 ^ e`, whatever `m`. -/
def Decimal.shortestOf (m : Nat) (e : Int) : Decimal :=
  if m = 0 then ⟨0, 0⟩ else shortest m e

/-- A decimal with a point or an exponent. -/
def Decimal.literal (d : Decimal) : List Char :=
  if -4 ≤ d.leadingExponent ∧ d.leadingExponent < 16 then
    d.positional ++ (if 0 ≤ d.exponent then ['.', '0'] else [])
  else d.scientific 2

/-- A minus before the digits of a negative number. -/
def withSign (negative : Bool) (ds : List Char) : List Char :=
  if negative then '-' :: ds else ds

/-- `1.0`, `-0.0`, `1e-05`, `1e+16`, `inf`, `nan`. -/
def Binary64.literal : Binary64 → String
  | .nan            => "nan"
  | .inf s          => if s then "-inf" else "inf"
  | .finite s m e _ => String.ofList (withSign s (Decimal.shortestOf m e).literal)

end Abacus

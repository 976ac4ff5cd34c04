import Abacus.Binary64.Rounding
import Abacus.Binary64.Word
/-!
# Abacus — Binary64 — Power

Raising to a power. The exceptional cases are settled here; a positive finite base other than
one goes to the platform's `pow`, the one operation that is not an exact result rounded once.
-/

namespace Abacus.Binary64

inductive PowerFailure where
  | zeroToNegative
  | notReal
  | tooLarge
  deriving DecidableEq, Repr

def one : Binary64 := ofInt 1

/-- Whether a number is an odd whole number. -/
def isOddIntegral : Binary64 → Bool
  | x@(.finite _ m e _) => x.isIntegral && m * 2 ^ e.toNat / 2 ^ (-e).toNat % 2 == 1
  | _                   => false

def viaPlatform (a b : Binary64) : Binary64 :=
  ofWord ((Float.ofBits a.toWord.toUInt64).pow (Float.ofBits b.toWord.toUInt64)).toBits.toNat

/-- A power of a positive finite base, negated on demand. -/
def powPositive (negate : Bool) (a b : Binary64) : Except PowerFailure Binary64 :=
  let r := if a = one then one else viaPlatform a b
  match r with
  | .inf _ => .error .tooLarge
  | r      => .ok (if negate then r.neg else r)

/-- `a` to the power `b`. Anything to the power zero is one, and so is one to any power; a zero
base has no negative power, and a negative base no real power that is not whole. That a result is
too large is noticed before that it is not real. -/
def pow (a b : Binary64) : Except PowerFailure Binary64 :=
  if b.isZero then .ok one
  else match a, b with
  | .nan, _ => .ok .nan
  | a, .nan => .ok (if a = one then one else .nan)
  | a, .inf t =>
      let size := a.abs
      .ok (if size = one then one
        else if t = size.lt one then .inf false else zero false)
  | .inf s, b =>
      let negative := s && b.isOddIntegral
      .ok (if b.isNegative then zero negative else .inf negative)
  | a@(.finite s m e h), b =>
      if m = 0 then
        if b.isNegative then .error .zeroToNegative
        else .ok (zero (s && b.isOddIntegral))
      else if s then
        match powPositive b.isOddIntegral (.finite false m e h) b with
        | .ok v    => if b.isIntegral then .ok v else .error .notReal
        | .error f => .error f
      else powPositive false a b

end Abacus.Binary64

import Reckoner.Rounding
import Reckoner.Value.Basic

/-!
# The nearest binary floating-point number

The bits of the double-precision number nearest to a rational, a tie to the even
significand.  The significand is a rounded quotient of integers, so that no
rounding happens twice: a number below the normal range keeps the smallest
exponent and loses bits, and one beyond the range becomes infinite.
-/

namespace Reckoner
namespace Binary64

/-- The exponent of the leading bit of `num / den`. -/
def leadingExponent (num den : Nat) : Int :=
  let guess : Int := (num.log2 : Int) - den.log2
  let reached : Bool := match guess with
    | .ofNat k => den * twoPow k ≤ num
    | .negSucc k => den ≤ num * twoPow (k + 1)
  if reached then guess else guess - 1

/-- `num / den` in units of `2 ^ unit`, to the nearest integer. -/
def unitsOf (num den : Nat) : Int → Nat
  | .ofNat unit => Rounding.nearestNat num (den * twoPow unit)
  | .negSucc unit => Rounding.nearestNat (num * twoPow (unit + 1)) den

/-- The bits of infinity. -/
def infinity : Nat := 0x7FF * twoPow 52

/-- The bits of the nearest double to a positive quotient.  The significand is
added to the exponent field rather than joined to it, so that a carry out of the
significand moves on to the next exponent by itself. -/
def magnitudeBits (num den : Nat) : Nat :=
  let unit := max (leadingExponent num den - 52) (-1074)
  min (unitsOf num den unit + (unit + 1074).toNat * twoPow 52) infinity

/-- The bits of the double nearest to a rational. -/
def bits (q : Rat) : Nat :=
  if q.num = 0 then 0
  else (if q.num < 0 then twoPow 63 else 0) + magnitudeBits q.num.natAbs q.den

end Binary64
end Reckoner

import Reckoner.Fault
import Reckoner.FixedPoint.Series
import Reckoner.FixedPoint.Widening

/-!
# Roots

`floorRoot q n` is the integer part of the `q`-th root of `n`, by repeated
averaging from above.  A root is exact when the power of its integer part is the
number itself; a rational has an exact root when numerator and denominator do.
Only the square root is also approximated.
-/

namespace Reckoner
namespace Root

/-! ## Integer roots -/

/-- Replaces `x` by the average of `q - 1` times `x` and `n / x ^ (q - 1)`, as long as
it decreases.  Started at or above the root it decreases to the integer part of the
root and stops there. -/
def descend (q n x : Nat) : Nat :=
  let y := ((q - 1) * x + n / Nat.pow x (q - 1)) / q
  if y < x then descend q n y else x
termination_by x

/-- The largest integer whose `q`-th power is at most `n`, for `q` at least one.
A number shorter than `q` bits has no root above one. -/
def floorRoot (q n : Nat) : Nat :=
  if n = 0 then 0
  else if n.log2 < q then 1
  else descend q n (twoPow (n.log2 / q + 1))

/-- The exact `q`-th root of a natural number, if there is one. -/
def perfectNat? (q n : Nat) : Option Nat :=
  let r := floorRoot q n
  if Nat.pow r q = n then some r else none

/-- The exact `q`-th root of an integer, if there is one; a negative number has
one only if `q` is odd, and nothing has a zeroth root. -/
def perfectInt? (q : Nat) (n : Int) : Option Int :=
  if q = 0 then none
  else if n < 0 then
    if q % 2 = 0 then none else (perfectNat? q n.natAbs).map fun r => -(r : Int)
  else (perfectNat? q n.natAbs).map fun r => (r : Int)

/-! ## Rational roots -/

/-- The exact `q`-th root of a rational: numerator and denominator are coprime, so
both must have one. -/
def perfectRat? (q : Nat) (x : Rat) : Option Rat :=
  match perfectInt? q x.num, perfectInt? q x.den with
  | some n, some d => some (Rat.divInt n d)
  | _, _ => none

/-- The square root from below, with `precision` significant digits, the guard
digits and one more for each digit of the denominator. -/
def approximateSqrt (x : Rat) (precision : Nat) : Rat :=
  let w := precision + FixedPoint.guardDigits + Numeral.digitCount x.den
  FixedPoint.toRat (floorRoot 2 (x.num.natAbs * wordTenPow (2 * w) / x.den)) w

/-- The square root: exact where it is rational, approximated where it is not. -/
def sqrt (x : Rat) (precision : Nat) : Except Fault Rat :=
  if x.num < 0 then .error (.arithmetic .negativeSquareRoot)
  else
    match perfectRat? 2 x with
    | some r => .ok r
    | none => .ok (approximateSqrt x precision)

end Root
end Reckoner

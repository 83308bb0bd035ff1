import Reckoner.FixedPoint.Logarithm

/-!
# The exponential and real powers

`exp z` is `2 ^ q * exp r`, where `q` is the integer nearest to `z / ln 2` and the
rest `r` is at most half of `ln 2`.  A real power `x ^ y` is `exp (y * ln x)`.
-/

namespace Reckoner
namespace FixedPoint

/-- The series of `exp r`: the terms `r ^ j / j!`.  `s` is one in the units of the
terms. -/
def expSeries (r s : Int) : Series where
  next j t := (t * r).tdiv (s * (j + 1))
  contribution _ t := t

/-- The number e with `precision` significant digits and the guard digits. -/
def e (precision : Nat) : Rat :=
  let w := precision + guardDigits
  let s : Int := wordTenPow w
  toRat ((expSeries s s).sum (halvings s + 1) s) w

/-- The largest power of two that an exponential may carry. -/
def binaryExponentLimit : Nat := 0xFFFFFFFF

/-- `exp` of `z` units of `10 ^ -w`.  The reduction divides by `ln 2` in those units, which
must not come out as zero. -/
def expScaled (z : Int) (w : Nat) : Except Fault Rat :=
  let s : Int := wordTenPow w
  let ln2 := ln2Scaled w
  let q := Rounding.nearest z ln2
  if ln2 = 0 then .error (.arithmetic .crash)
  else if binaryExponentLimit < q.natAbs then .error (.arithmetic .exponentialOverflow)
  else
    let sum := (expSeries (z - q * ln2) s).sum (halvings s) s
    .ok <| match q with
      | .ofNat q => mkRat (sum * twoPow q) (wordTenPow w)
      | .negSucc q => mkRat sum (wordTenPow w * twoPow (q + 1))

/-- The exponential. -/
def exp (x : Rat) (precision : Nat) : Except Fault Rat :=
  let w := precision + guardDigits + integerDigits x
  expScaled (ofRat x w) w

/-- `x ^ y` for a positive `x`.  Multiplying by `y` enlarges the error of `ln x`,
which is paid for with the digits of `y` and of the binary exponent of `x`. -/
def power (x y : Rat) (precision : Nat) : Except Fault Rat :=
  let w := precision + guardDigits + integerDigits y
    + Numeral.digitCount (binaryExponent x).natAbs
  if x.num ≤ 0 then .error (.arithmetic .nonPositiveLogarithm)
  else expScaled ((lnScaled x w * y.num).tdiv y.den) w

end FixedPoint
end Reckoner

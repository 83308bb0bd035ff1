import Reckoner.Fault
import Reckoner.FixedPoint.Series
import Reckoner.FixedPoint.Widening

/-!
# The natural logarithm

A positive number is `m * 2 ^ k` with `m` between one half and two, read off the
binary lengths of numerator and denominator; `ln m` is twice the inverse
hyperbolic tangent of `(m - 1) / (m + 1)`, whose magnitude is below a third.
-/

namespace Reckoner
namespace FixedPoint

/-- The series of `atanh z`: the terms `z ^ (2j+1)`, each divided by `2j+1`.
`z2` is `z` squared and `s` is one, both in the units of the terms. -/
def atanhSeries (z2 s : Int) : Series where
  next _ t := (t * z2).tdiv s
  contribution j t := t.tdiv (2 * j + 1)

/-- `atanh (zn / zd)` in units of `10 ^ -w`, for an argument of magnitude at most
a third. -/
def atanhScaled (zn zd : Int) (w : Nat) : Int :=
  let s : Int := wordTenPow w
  let first := (s * zn).tdiv zd
  (atanhSeries ((s * zn * zn).tdiv (zd * zd)) s).sum (halvings first) first

/-- `ln 2` in units of `10 ^ -w`. -/
def ln2Scaled (w : Nat) : Int := atanhScaled 1 3 w * 2

/-- The power of two by which a positive rational is divided before its logarithm
is taken. -/
def binaryExponent (x : Rat) : Int := (x.num.natAbs.log2 : Int) - x.den.log2

/-- Numerator and denominator of `x / 2 ^ k`, where `k` is the binary exponent. -/
def binaryMantissa (x : Rat) : Int × Int :=
  match binaryExponent x with
  | .ofNat k => (x.num, x.den * twoPow k)
  | .negSucc k => (x.num * twoPow (k + 1), x.den)

/-- `ln x` in units of `10 ^ -w`, for a positive `x`. -/
def lnScaled (x : Rat) (w : Nat) : Int :=
  let (mn, md) := binaryMantissa x
  ln2Scaled w * binaryExponent x + atanhScaled (mn - md) (mn + md) w * 2

/-- The natural logarithm of a positive number, exact at one. -/
def ln (x : Rat) (precision : Nat) : Except Fault Rat :=
  if x.num ≤ 0 then .error (.arithmetic .nonPositiveLogarithm)
  else if x = 1 then .ok 0
  else
    let (v, w) := widen precision (toSize (precision + guardDigits)) fun w =>
      let v := lnScaled x w
      (v, knownDigits v)
    .ok (toRat v w)

end FixedPoint
end Reckoner

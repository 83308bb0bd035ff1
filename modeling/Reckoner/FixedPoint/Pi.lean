import Reckoner.FixedPoint.Series
import Reckoner.FixedPoint.Widening

/-!
# The number π

Machin's formula `π = 16 arctan (1/5) - 4 arctan (1/239)`, with ten digits more
than are kept.
-/

namespace Reckoner
namespace FixedPoint

/-- The series of `arctan (1/q)`: the terms `1 / q ^ (2j+1)`, each divided by
`2j+1` and taken with alternating sign. -/
def arctanSeries (q : Int) : Series where
  next _ t := t.tdiv (q * q)
  contribution j t :=
    let u := t.tdiv (2 * j + 1)
    if j % 2 = 0 then u else -u

/-- `arctan (1/q)` in units of `1 / scale`, for `q` at least two. -/
def arctanInverse (q scale : Int) : Int :=
  (arctanSeries q).sum (halvings scale) (scale.tdiv q)

/-- Digits of π computed and then dropped. -/
def piSpareDigits : Nat := 10

/-- π in units of `10 ^ -digits`, truncated. -/
def piScaled (digits : Nat) : Int :=
  let scale : Int := wordTenPow (digits + piSpareDigits)
  (16 * arctanInverse 5 scale - 4 * arctanInverse 239 scale).tdiv (wordTenPow piSpareDigits)

/-- π with `precision` significant digits and the guard digits. -/
def pi (precision : Nat) : Rat :=
  let w := precision + guardDigits
  toRat (piScaled w) w

end FixedPoint
end Reckoner

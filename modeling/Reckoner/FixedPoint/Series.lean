import Reckoner.Numeral
import Reckoner.Rounding

/-!
# Series of integers

The approximations of this library are computed in fixed point: a real number is
an integer in units of `10 ^ -w`, where `w`, the width, is taken for a word of 32 bits
(`wordTenPow`).  A series is then a running integer term, a rule
for the next one, and the contribution of each to the sum; all divisions truncate
towards zero, so that the terms of a converging series reach zero and the sum is
finite.

`Series.sum` stops at the first zero term.  Its first argument bounds the number
of terms; every series here passes a bound that its terms cannot exceed.
-/

namespace Reckoner
namespace FixedPoint

/-- A series given by its term recurrence. -/
structure Series where
  /-- The term after the `j`-th one. -/
  next : Nat → Int → Int
  /-- What the `j`-th term adds to the sum. -/
  contribution : Nat → Int → Int

namespace Series

/-- The sum from the `j`-th term `t` on, up to the first zero term. -/
def sumFrom (s : Series) : Nat → Nat → Int → Int
  | 0, _, _ => 0
  | bound + 1, j, t =>
    if t = 0 then 0 else s.contribution j t + s.sumFrom bound (j + 1) (s.next j t)

/-- The sum of a series with a given first term. -/
def sum (s : Series) (bound : Nat) (first : Int) : Int := s.sumFrom bound 0 first

/-- The `j`-th term. -/
def term (s : Series) (first : Int) : Nat → Int
  | 0 => first
  | j + 1 => s.next j (s.term first j)

end Series

/-- How many halvings bring an integer to zero. -/
def halvings (t : Int) : Nat := t.natAbs.log2 + 1

/-- The integer nearest to `x` in units of `10 ^ -w`. -/
def ofRat (x : Rat) (w : Nat) : Int := Rounding.nearest (x.num * wordTenPow w) x.den

/-- The rational that `v` units of `10 ^ -w` make. -/
def toRat (v : Int) (w : Nat) : Rat := mkRat v (wordTenPow w)

/-- The number of decimal digits of the integer part of a magnitude; none below
one. -/
def integerDigits (x : Rat) : Nat :=
  let whole := x.num.natAbs / x.den
  if whole = 0 then 0 else Numeral.digitCount whole

end FixedPoint
end Reckoner

import Reckoner.Fraction

/-!
# Finite and periodic decimal expansions

A fraction in lowest terms has a finite decimal expansion exactly when its
denominator has no prime factor other than two and five.  `placesFor?` decides
this for a denominator and says how many places the expansion takes.
-/

namespace Reckoner
namespace Expansion

/-! ## Dividing a factor out -/

/-- Divides `n` by `p` as often as possible, with a bound on the number of
squarings of `p`: the exponent and what is left.  Working with `p * p` first
halves the exponent at each level, so a power of a million costs twenty
divisions and not a million. -/
def divideOutWithin : Nat → Nat → Nat → Nat × Nat
  | 0, _, n => (0, n)
  | fuel + 1, p, n =>
    if n % p ≠ 0 then (0, n)
    else
      let (k, rest) := divideOutWithin fuel (p * p) (n / p)
      if rest % p = 0 then (2 * k + 2, rest / p) else (2 * k + 1, rest)

/-- The exponent of `p` in a positive `n`, and the cofactor. -/
def divideOut (p n : Nat) : Nat × Nat := divideOutWithin (n.log2 + 1) p n

/-! ## Length of the expansion -/

/-- The number of decimal places of a reduced fraction with denominator `den`,
or nothing if the expansion never ends.  A denominator `2 ^ a * 5 ^ b` takes
`max a b` places. -/
def placesFor? (den : Nat) : Option Nat :=
  if den = 0 then none
  else
    let (twos, rest) := divideOut 2 den
    let (fives, rest) := divideOut 5 rest
    if rest = 1 then some (max twos fives) else none

/-- Whether `num / den` has an infinite expansion.  No expansion at all counts
as infinite, except for `0 / 0`. -/
def isPeriodic (num den : Int) : Bool :=
  let g := Euclid.gcd num den
  g != 0 && (placesFor? (den.natAbs / g)).isNone

end Expansion
end Reckoner

import Reckoner.Powers

/-!
# Rounding a quotient to the nearest integer

One rule serves every place where digits are dropped: the nearest integer, and
on a tie the even one.  `nearestNat` is the rule on natural numbers and
`nearest` carries it to integers, where the sign of the quotient is put back
after the magnitudes have been divided, so that rounding commutes with negation.
-/

namespace Reckoner
namespace Rounding

/-- `num / den` rounded to the nearest natural number, a half to the even one. -/
def nearestNat (num den : Nat) : Nat :=
  let q := num / den
  match compare (2 * (num % den)) den with
  | .lt => q
  | .gt => q + 1
  | .eq => q + q % 2

/-- `num / den` rounded to the nearest integer, a half to the even one. -/
def nearest (num den : Int) : Int :=
  let q : Int := nearestNat num.natAbs den.natAbs
  if num < 0 ↔ den < 0 then q else -q

/-- `num / den` rounded at `places` decimal places, as a multiple of
`10 ^ -places`; a negative number of places rounds to tens, hundreds and so on. -/
def nearestAt (num den : Nat) : Int → Nat
  | .ofNat places => nearestNat (num * wordTenPow places) den
  | .negSucc places => nearestNat num (den * wordTenPow (places + 1))

end Rounding
end Reckoner

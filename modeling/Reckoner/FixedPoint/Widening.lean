import Reckoner.Numeral

/-!
# Widening

A fixed-point result has a known absolute error, hence too few correct digits when
it is close to zero.  `widen` computes it again with as many more digits as were
missing, until enough are known or the width has reached its limit.
-/

namespace Reckoner
namespace FixedPoint

/-- Digits computed beyond those that are asked for. -/
def guardDigits : Nat := 12

/-- The digits of a fixed-point result that carry information; zero has none. -/
def knownDigits (v : Int) : Nat := if v = 0 then 0 else Numeral.digitCount v.natAbs

variable {α : Type}

/-- Computes at width `w`, and again at a larger width for as long as fewer than
`wanted` digits are known and the limit is not reached.  Each round grows by the
number of missing digits, so the distance to the limit shrinks.  (A sum that no size
has room for counts as beyond the limit here.) -/
def widenFrom (compute : Nat → α × Nat) (wanted limit w : Nat) : α × Nat :=
  let (v, known) := compute w
  if wanted ≤ known ∨ limit ≤ w then (v, w)
  else widenFrom compute wanted limit (min (w + (wanted - known)) limit)
termination_by limit - w

/-- The digits that must be known before a result at this precision is accepted. -/
def wantedDigits (precision : Nat) : Nat := toSize (precision + guardDigits / 2)

/-- The largest width tried for a result that starts at width `w`. -/
def widthLimit (precision w : Nat) : Nat := toSize (w + 4 * (precision + guardDigits))

/-- The result at the first sufficient width from `w` on, and that width. -/
def widen (precision w : Nat) (compute : Nat → α × Nat) : α × Nat :=
  widenFrom compute (wantedDigits precision) (widthLimit precision w) w

end FixedPoint
end Reckoner

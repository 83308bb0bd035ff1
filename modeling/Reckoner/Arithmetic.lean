import Reckoner.Expansion
import Reckoner.FixedPoint.Exponential
import Reckoner.Options
import Reckoner.Root
import Reckoner.Traced
import Reckoner.Value.Canonical

/-!
# Exact arithmetic

The full computation of the five operators.  Sums and products of numbers with a
finite expansion stay in fixed point; as soon as a ratio takes part, and for every
quotient, the fractions are combined and `quotient` brings the result to lowest terms
and chooses its representation.  A power is exact where it is rational and cheap to see:
an integer exponent, or a small root that comes out even; otherwise it is
`exp (b * ln a)`, rounded.

`compute` is the result and `computeTraced` the result with its events.
-/

namespace Reckoner
namespace Arithmetic

/-! ## Quotients of integers -/

/-- A quotient of integers kept as an integer or a ratio. -/
def ratio (num den : Int) : Outcome :=
  if hden : den = 0 then .error .divisionByZero
  else if num = 0 then .ok 0
  else
    let q := (Fraction.ofInts num den hden).reduce
    .ok (if q.den = 1 then .integer q.num else .ratio q)

/-- The canonical value of a quotient of integers: an integer, a decimal with exactly
the places that its expansion takes, or a ratio if the expansion never ends. -/
def quotient (num den : Int) : Outcome :=
  if hden : den = 0 then .error .divisionByZero
  else
    let g := Euclid.gcd num den
    let x := Fraction.ofInts (num.tdiv g) (den.tdiv g) (Euclid.tdiv_gcd_ne_zero hden)
    if x.den = 1 then .ok (.integer x.num)
    else
      match Expansion.placesFor? x.den with
      | some places => .ok (.scaled (x.num * (tenPow places / x.den : Nat)) places)
      | none => ratio x.num x.den

/-! ## Sums, products and quotients -/

/-- The decimal of a value with a finite expansion on its face. -/
def finite? : Value → Option Decimal
  | .integer n => some ⟨n, 0⟩
  | .decimal d => some d
  | .ratio _ => none

/-- The sum.  Fractions are added over their own denominator if it is the same, else over
the least common multiple of the two. -/
def add (a b : Value) : Outcome :=
  match finite? a, finite? b with
  | some x, some y => .ok (.ofDecimal (x.add y))
  | _, _ =>
    let (na, da) := a.fraction
    let (nb, db) := b.fraction
    if da = db then quotient (na + nb) da
    else
      let d := Euclid.lcm da db
      quotient (na * (d / da : Nat) + nb * (d / db : Nat)) d

/-- The difference: the sum with the opposite. -/
def sub (a b : Value) : Outcome := add a (-b)

/-- The product. -/
def mul (a b : Value) : Outcome :=
  match finite? a, finite? b with
  | some x, some y => .ok (.ofDecimal (x.mul y))
  | _, _ => quotient (a.fraction.1 * b.fraction.1) (a.fraction.2 * b.fraction.2)

/-- The ratio of two values, never written as a decimal. -/
def ratioOfValues (a b : Value) : Outcome :=
  ratio (a.fraction.1 * b.fraction.2) (a.fraction.2 * b.fraction.1)

/-- The quotient.  Zero over zero is what the options say, anything else over zero
is a fault. -/
def div (options : Options) (a b : Value) : Outcome :=
  if b.isZero then
    if a.isZero && options.zeroOverZero == .zero then .ok 0 else .error .divisionByZero
  else quotient (a.fraction.1 * b.fraction.2) (a.fraction.2 * b.fraction.1)

/-! ## Powers -/

/-- The largest magnitude of an exponent that can be raised to at all. -/
def exponentCapacity : Nat := 0xFFFFFFFF

/-- The magnitude of an exponent, unless it is beyond the limit. -/
def checkExponent (options : Options) (n : Int) : Except Fault Nat :=
  if n.natAbs ≤ options.limits.exponent ∧ n.natAbs ≤ exponentCapacity then .ok n.natAbs
  else .error (.arithmetic (.exponentTooLarge n options.limits.exponent))

/-- `base ^ n`: the powers of the terms, the other way round for a negative exponent. -/
def integerPower (options : Options) (base : Rat) (n : Int) : Outcome := do
  let k ← checkExponent options n
  let num := Int.pow base.num k
  let den := Nat.pow base.den k
  if n < 0 then quotient den num else quotient num den

/-- The largest root that is tried for exactness. -/
def exactRootLimit : Nat := 64

/-- The ways to raise to a power. -/
inductive PowerMethod where
  /-- The result is known without any computation. -/
  | known (v : Value)
  /-- An integer power. -/
  | integer (base : Rat) (exponent : Int)
  /-- An integer power of the exact root of the base. -/
  | exactRoot (root : Rat) (exponent : Int)
  /-- The exponential of a multiple of the logarithm. -/
  | approximate (base exponent : Rat)
  deriving DecidableEq

namespace PowerMethod

/-- Chooses how to raise `a` to the power `b`.  The exponent zero comes first, so
that zero to the power zero is one. -/
def choose (options : Options) (a b : Value) : Except Fault PowerMethod :=
  if b.isZero then .ok (known 1)
  else if a.isZero then .ok (known 0)
  else
    let x := a.toRat
    let y := b.toRat
    if y.den = 1 then .ok (integer x y.num)
    else if a.sign < 0 then .error (.arithmetic (.nonRealPower a b))
    else do
      let _ ← checkExponent options (y.num.natAbs / y.den + 1 : Nat)
      if y.den ≤ exactRootLimit then
        match Root.perfectRat? y.den x with
        | some root => return exactRoot root y.num
        | none => return approximate x y
      else return approximate x y

/-- Carries a method out. -/
def carryOut (options : Options) : PowerMethod → Outcome
  | known v => .ok v
  | integer base n | exactRoot base n => integerPower options base n
  | approximate x y => do
    let r ← FixedPoint.power x y options.precision
    return .approximate r options.precision

/-- The events of a method: only an exact root is worth noting. -/
def events (a b : Value) : PowerMethod → List Event
  | exactRoot _ _ => [.tookExactRoot a b]
  | _ => []

end PowerMethod

/-- The power, and the method that gave it. -/
def powerTraced (options : Options) (a b : Value) : Traced Outcome :=
  match PowerMethod.choose options a b with
  | .ok method => ⟨method.carryOut options, method.events a b⟩
  | .error f => pure (.error f)

/-- The power. -/
def pow (options : Options) (a b : Value) : Outcome :=
  PowerMethod.choose options a b >>= PowerMethod.carryOut options

theorem value_powerTraced (options : Options) (a b : Value) :
    (powerTraced options a b).value = pow options a b := by
  unfold powerTraced pow
  cases PowerMethod.choose options a b <;> rfl

/-! ## All operators -/

/-- The full computation of an operator. -/
def compute (options : Options) (op : Operator) (a b : Value) : Outcome :=
  match op with
  | .add => add a b
  | .sub => sub a b
  | .mul => mul a b
  | .div => div options a b
  | .pow => pow options a b

/-- The event of an operation on two finite expansions with an infinite result. -/
def periodicEvents (op : Operator) (a b : Value) : Outcome → List Event
  | .ok v =>
    if v.isRatio && !a.isRatio && !b.isRatio then [.becamePeriodic op a b v] else []
  | .error _ => []

/-- The full computation of an operator, with its events. -/
def computeTraced (options : Options) (op : Operator) (a b : Value) : Traced Outcome := do
  let outcome ← match op with
    | .pow => powerTraced options a b
    | op => pure (compute options op a b)
  ⟨outcome, periodicEvents op a b outcome⟩

theorem value_computeTraced (options : Options) (op : Operator) (a b : Value) :
    (computeTraced options op a b).value = compute options op a b := by
  cases op <;> first | rfl | exact value_powerTraced options a b

end Arithmetic
end Reckoner

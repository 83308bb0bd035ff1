import Reckoner.Arithmetic
import Reckoner.Inquiry

/-!
# Shortcuts

The rules by which zero, one and minus one settle an operation without carrying it
out.  Where either operand may decide, the cheaper one is looked at first, and if
it decides, the other is never looked at.  `Shortcut.find` is that search and
`Shortcut.rule` the rule of each operator; `Operation.plan` adds what happens when
no rule applies, and `Operation.apply` is the whole operation on two known values.
-/

namespace Reckoner

/-- What it costs to evaluate the operands, counted in leaves. -/
structure Costs where
  left : Nat
  right : Nat
  deriving DecidableEq, Repr

namespace Shortcut

open Inquiry

/-- The operand to look at first: the cheaper one, the left one if they cost the
same. -/
def cheaper (costs : Costs) : Side := if costs.right < costs.left then .right else .left

/-- Which operand is the landmark `l`, if one is, looking at the cheaper one
first. -/
def find (costs : Costs) (l : Landmark) : Inquiry (Option Side) := do
  let first := cheaper costs
  if (← valueOf first).is l then return some first
  if (← valueOf first.other).is l then return some first.other
  return none

/-- `0 + x` and `x + 0` are `x`, and a sum of opposites is zero. -/
def add (costs : Costs) : Inquiry (Option Value) := do
  match ← find costs .zero with
  | some side => return some (← valueOf side.other)
  | none =>
    let a ← valueOf .left
    let b ← valueOf .right
    return if a.equals (-b) then some 0 else none

/-- `x - 0` is `x`, `0 - x` is the opposite, and `x - x` is zero. -/
def sub (costs : Costs) : Inquiry (Option Value) := do
  match ← find costs .zero with
  | some .right => return some (← valueOf .left)
  | some .left => return some (-(← valueOf .right))
  | none =>
    let a ← valueOf .left
    let b ← valueOf .right
    return if a.equals b then some 0 else none

/-- A factor zero makes the product zero, a factor one leaves the other factor, and
a factor minus one its opposite. -/
def mul (costs : Costs) : Inquiry (Option Value) := do
  if (← find costs .zero).isSome then return some 0
  match ← find costs .one with
  | some side => return some (← valueOf side.other)
  | none =>
    match ← find costs .minusOne with
    | some side => return some (-(← valueOf side.other))
    | none => return none

/-- The rules for a quotient of which the divisor is not zero: a dividend zero, a
divisor one or minus one, and a quotient of equals. -/
def divKnown (a b : Value) : Option Value :=
  if b.is .one then some a
  else if b.is .minusOne then some (-a)
  else if a.equals b then some 1
  else none

/-- The quotient.  If zero over zero is zero, the dividend is looked at first and a
zero settles it; otherwise the divisor is looked at first and a zero is a fault. -/
def div (policy : ZeroOverZero) : Inquiry (Option Value) := do
  match policy with
  | .zero =>
    let a ← valueOf .left
    if a.is .zero then return some 0
    let b ← valueOf .right
    if b.is .zero then fail .divisionByZero
    else return divKnown a b
  | .fault =>
    let b ← valueOf .right
    if b.is .zero then fail .divisionByZero
    else
      let a ← valueOf .left
      return if a.is .zero then some 0 else divKnown a b

/-- The exponent is looked at first: zero gives one, even for the base zero; then a
base zero gives zero, and the exponent one the base. -/
def pow : Inquiry (Option Value) := do
  let b ← valueOf .right
  if b.is .zero then return some 1
  let a ← valueOf .left
  return if a.is .zero then some 0 else if b.is .one then some a else none

/-- The shortcut rule of an operator. -/
def rule (options : Options) (costs : Costs) : Operator → Inquiry (Option Value)
  | .add => add costs
  | .sub => sub costs
  | .mul => mul costs
  | .div => div options.zeroOverZero
  | .pow => pow

end Shortcut

/-! ## Whole operations -/

/-- How an operation is settled: by a shortcut, or by computing with both values. -/
inductive Operation where
  | shortcut (result : Value)
  | full (left right : Value)
  deriving DecidableEq

namespace Operation

/-- Tries the shortcut and otherwise takes both operands. -/
def plan (options : Options) (costs : Costs) (op : Operator) : Inquiry Operation := do
  match ← Shortcut.rule options costs op with
  | some v => return shortcut v
  | none =>
    let a ← Inquiry.valueOf .left
    let b ← Inquiry.valueOf .right
    return full a b

/-- The result of a settled operation. -/
def conclude (options : Options) (op : Operator) : Operation → Traced Outcome
  | shortcut v => ⟨.ok v, [.shortcut op v]⟩
  | full a b => Arithmetic.computeTraced options op a b

/-- The costs of two values that are already known. -/
def knownCosts : Costs := ⟨1, 1⟩

/-- The operation on two known values. -/
def applyTraced (options : Options) (op : Operator) (a b : Value) : Traced Outcome :=
  match (plan options knownCosts op).settle a b with
  | .ok operation => operation.conclude options op
  | .error f => pure (.error f)

/-- The operation on two known values. -/
def apply (options : Options) (op : Operator) (a b : Value) : Outcome :=
  (applyTraced options op a b).value

end Operation
end Reckoner

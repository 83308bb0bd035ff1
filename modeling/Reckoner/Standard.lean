import Reckoner.FixedPoint.Trigonometry
import Reckoner.Function
import Reckoner.Shortcut

/-!
# The standard functions and constants

Inexact results are rounded to the precision of the options; everything else is
exact.  The greatest common divisor and the least common multiple extend to
rationals: in lowest terms, one takes the divisor of the numerators over the
multiple of the denominators, the other the reverse.
-/

namespace Reckoner
namespace Standard

/-! ## Exact functions -/

/-- The greatest common divisor of two rationals. -/
def gcd (a b : Value) : Outcome :=
  Arithmetic.quotient (Euclid.gcd a.numerator b.numerator)
    (Euclid.lcm a.denominator b.denominator)

/-- The least common multiple of two rationals, zero if one of them is zero. -/
def lcm (a b : Value) : Outcome :=
  if a.isZero || b.isZero then .ok 0
  else Arithmetic.quotient (Euclid.lcm a.numerator b.numerator)
    (Euclid.gcd a.denominator b.denominator)

/-- The first of the values that no other precedes in the order `better`. -/
def extremum (better : Ordering) (first : Value) (rest : List Value) : Value :=
  rest.foldl (fun best v => if v.compare best == better then v else best) first

/-! ## Rounded functions -/

/-- Rounds the result of an approximation to the precision of the options. -/
def rounded (options : Options) (r : Except Fault Rat) : Outcome :=
  r.map fun q => .approximate q options.precision

/-- The square root: canonical where it is rational, rounded where it is not. -/
def sqrt (options : Options) (x : Value) : Outcome :=
  match Root.perfectRat? 2 x.toRat with
  | some r => Arithmetic.quotient r.num r.den
  | none => rounded options (Root.sqrt x.toRat options.precision)

/-- The exponential, exactly one at zero. -/
def exp (options : Options) (x : Value) : Outcome :=
  if x.isZero then .ok 1 else rounded options (FixedPoint.exp x.toRat options.precision)

/-! ## The tables -/

/-- The standard functions. -/
def functions : List Function :=
  [.unary "sin" fun o x => rounded o (.ok (FixedPoint.sin x.toRat o.precision)),
   .unary "cos" fun o x => rounded o (.ok (FixedPoint.cos x.toRat o.precision)),
   .unary "tan" fun o x => rounded o (FixedPoint.tan x.toRat o.precision),
   .unary "sqrt" sqrt,
   .unary "ln" fun o x => rounded o (FixedPoint.ln x.toRat o.precision),
   .unary "exp" exp,
   .binary "pow" fun o x y => Operation.applyTraced o .pow x y,
   .binary "gcd" fun _ x y => pure (gcd x y),
   .binary "hcf" fun _ x y => pure (gcd x y),
   .binary "lcm" fun _ x y => pure (lcm x y),
   .unary "abs" fun _ x => .ok x.abs,
   .unary "neg" fun _ x => .ok (-x),
   .nonempty "min" (extremum .lt),
   .nonempty "max" (extremum .gt)]

/-- The standard constants, π and e, to `precision` significant digits. -/
def constants (precision : Nat) : List Constant :=
  [⟨"pi", .approximate (FixedPoint.pi precision) precision⟩,
   ⟨"e", .approximate (FixedPoint.e precision) precision⟩]

end Standard
end Reckoner

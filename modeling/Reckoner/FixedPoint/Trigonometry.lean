import Reckoner.Fault
import Reckoner.FixedPoint.Pi

/-!
# Sine, cosine and tangent

The argument is reduced by the nearest multiple of 2π, and sine and cosine are
then one alternating Taylor series with different first terms.
-/

namespace Reckoner
namespace FixedPoint

/-- The alternating series whose terms are those of sine, starting from degree
`n = 1`, or of cosine, starting from degree `n = 0`.  `r2` is the squared argument
and `s` is one in the units of the terms. -/
def taylorSeries (r2 s : Int) (n : Nat) : Series where
  next j t := (-(t * r2)).tdiv (s * ((n + 2 * j + 1) * (n + 2 * j + 2) : Nat))
  contribution _ t := t

/-- A number of terms that the Taylor series cannot exceed.  The terms may grow
while the degree is small; once its square passes twice the squared argument they
at least halve, and until then each has grown by at most that square. -/
def taylorBound (r2 s first : Int) : Nat :=
  let square := (r2.tdiv s).natAbs + 1
  square + halvings first + square * (square.log2 + 1) + 1

/-- The Taylor series at `r` units of `10 ^ -w`, from a given first term of degree
`n` on. -/
def taylorScaled (r first : Int) (n w : Nat) : Int :=
  let s : Int := wordTenPow w
  let r2 := (r * r).tdiv s
  (taylorSeries r2 s n).sum (taylorBound r2 s first) first

/-- `x` less the nearest multiple of 2π, in units of `10 ^ -w`.  This asks for a width at
which π is not zero. -/
def reduceScaled (x : Rat) (w : Nat) : Int :=
  let xs := ofRat x w
  let turn := piScaled w * 2
  xs - Rounding.nearest xs turn * turn

/-- `sin x` in units of `10 ^ -w`. -/
def sinScaled (x : Rat) (w : Nat) : Int :=
  let r := reduceScaled x w
  taylorScaled r r 1 w

/-- `cos x` in units of `10 ^ -w`. -/
def cosScaled (x : Rat) (w : Nat) : Int := taylorScaled (reduceScaled x w) (wordTenPow w) 0 w

/-- The width at which a trigonometric function of `x` is first computed. -/
def angleWidth (x : Rat) (precision : Nat) : Nat :=
  toSize (precision + guardDigits + integerDigits x)

/-- The sine, exact at zero. -/
def sin (x : Rat) (precision : Nat) : Rat :=
  if x.num = 0 then 0
  else
    let (v, w) := widen precision (angleWidth x precision) fun w =>
      let v := sinScaled x w
      (v, knownDigits v)
    toRat v w

/-- The cosine. -/
def cos (x : Rat) (precision : Nat) : Rat :=
  let (v, w) := widen precision (angleWidth x precision) fun w =>
    let v := cosScaled x w
    (v, knownDigits v)
  toRat v w

/-- The tangent: sine over cosine, both with enough known digits.  It is undefined
where the cosine comes out as zero. -/
def tan (x : Rat) (precision : Nat) : Except Fault Rat :=
  if x.num = 0 then .ok 0
  else
    let ((s, c), _) := widen precision (angleWidth x precision) fun w =>
      let s := sinScaled x w
      let c := cosScaled x w
      ((s, c), min (knownDigits s) (knownDigits c))
    if c = 0 then .error (.arithmetic .undefinedTangent) else .ok (Rat.divInt s c)

end FixedPoint
end Reckoner

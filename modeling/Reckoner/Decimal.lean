import Reckoner.Numeral
import Reckoner.Rounding

/-!
# Fixed-point decimals

A `Decimal` is a mantissa and a scale, worth `mantissa / 10 ^ scale`.  Several
pairs stand for one number; `normalize` picks the one without trailing zeros.
Sums and products of decimals are computed on aligned mantissas, with no
greatest common divisor in sight, and `significant` is the decimal of a given
number of significant digits that is nearest to a rational, as long as the place of
the last digit is a word.
-/

namespace Reckoner

/-- `mantissa / 10 ^ scale`, kept as written: `1.50` and `1.5` differ. -/
structure Decimal where
  mantissa : Int
  scale : Nat
  deriving DecidableEq, Repr, Inhabited

namespace Decimal

/-- The rational a decimal stands for. -/
def toRat (d : Decimal) : Rat := mkRat d.mantissa (tenPow d.scale)

/-! ## Trailing zeros -/

/-- Removes trailing zeros of a mantissa while the scale allows it. -/
def stripZeros (mantissa : Int) : Nat → Decimal
  | 0 => ⟨mantissa, 0⟩
  | scale + 1 =>
    if mantissa % 10 = 0 then stripZeros (mantissa / 10) scale else ⟨mantissa, scale + 1⟩

/-- The same number without trailing zeros after the point; zero has scale zero. -/
def normalize (d : Decimal) : Decimal :=
  if d.mantissa = 0 then ⟨0, 0⟩ else stripZeros d.mantissa d.scale

/-- No trailing zero and something after the point: the decimals that are not
integers in disguise. -/
def IsNormal (d : Decimal) : Prop := 0 < d.scale ∧ d.mantissa % 10 ≠ 0

instance (d : Decimal) : Decidable d.IsNormal :=
  inferInstanceAs (Decidable (0 < d.scale ∧ d.mantissa % 10 ≠ 0))

/-! ## Arithmetic -/

/-- The mantissa that `d` has at a scale at least its own. -/
def mantissaAt (d : Decimal) (scale : Nat) : Int := d.mantissa * tenPow (scale - d.scale)

/-- The sum, at the larger of the two scales. -/
def add (a b : Decimal) : Decimal :=
  let scale := max a.scale b.scale
  ⟨a.mantissaAt scale + b.mantissaAt scale, scale⟩

/-- The scale of a product.  A scale is a word of 32 bits, and so is the sum of two: what is
carried out of it is lost.  No decimal has a larger scale; there the sum is as it is. -/
def productScale (a b : Nat) : Nat :=
  if a < wordCount ∧ b < wordCount then toWord (a + b) else a + b

/-- The product: mantissas multiply and scales add, as words. -/
def mul (a b : Decimal) : Decimal :=
  ⟨a.mantissa * b.mantissa, productScale a.scale b.scale⟩

/-- The opposite number at the same scale. -/
def neg (d : Decimal) : Decimal := ⟨-d.mantissa, d.scale⟩

/-! ## Text -/

/-- All digits of the mantissa, with a point before the last `scale` of them. -/
def chars (d : Decimal) : List Char := Numeral.fixedPoint d.mantissa d.scale

/-! ## Significant digits -/

/-- The magnitude of a non-zero rational rounded to `n ≥ 1` significant digits,
as a mantissa and the power of ten that divides it.

Comparing the lengths of numerator and denominator puts the leading digit at one
of two places.  The first guess assumes the lower one and may come out one digit
too long; then the rounding is done again from the exact quotient, one place
earlier, so that nothing is rounded twice.  The number of places is a signed word of 64
bits. -/
def significantMagnitude (num den n : Nat) : Nat × Int :=
  let lead : Int := (Numeral.digitCount num : Int) - Numeral.digitCount den
  let places : Int := ((n : Int) - lead).bmod sizeCount
  let m := Rounding.nearestAt num den places
  if Numeral.digitCount m > n then (Rounding.nearestAt num den (places - 1), places - 1)
  else (m, places)

/-- `q` rounded to `n` significant digits, a half to the even digit; `n = 0`
acts as one.  Trailing zeros are kept, and a number too large to have digits
after the point comes out at scale zero.  A scale is a word. -/
def significant (q : Rat) (n : Nat) : Decimal :=
  if q.num = 0 then ⟨0, 0⟩
  else
    let (m, places) := significantMagnitude q.num.natAbs q.den (max n 1)
    let m : Int := if q.num < 0 then -(m : Int) else m
    match places with
    | .ofNat places => ⟨m, toWord places⟩
    | .negSucc excess => ⟨m * wordTenPow (excess + 1), 0⟩

end Decimal
end Reckoner

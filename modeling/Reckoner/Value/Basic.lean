import Reckoner.Decimal

/-!
# Exact values

The calculator knows three representations of a rational number: an integer, a
fixed-point decimal and a ratio.  Two views tie them together.  `fraction` is a
numerator over a positive denominator, read straight off the representation and
not reduced; `toRat` is the number itself.  Everything that compares values works
on fractions by cross multiplication, so that it costs no greatest common
divisor.

`Canonical` is the form in which every computed result comes out: integers are
integers, finite expansions are decimals without trailing zeros, and only a
number whose expansion never ends is a ratio.
-/

namespace Reckoner

/-- An exact rational number, remembered together with the way it is written. -/
inductive Value where
  /-- A whole number. -/
  | integer (n : Int)
  /-- A number with a point; it need not be normal. -/
  | decimal (d : Decimal)
  /-- A numerator over a denominator, in lowest terms. -/
  | ratio (q : Rat)
  deriving DecidableEq, Repr

/-- The three ways in which a value can be written. -/
inductive Nature where
  | integer
  | decimal
  | ratio
  deriving DecidableEq, Repr

/-- The name under which a representation is shown. -/
def Nature.name : Nature → String
  | .integer => "entier"
  | .decimal => "décimal"
  | .ratio => "rationnel"

/-- The numbers at which operators simplify: the neutral and absorbing elements
and minus one. -/
inductive Landmark where
  | zero
  | one
  | minusOne
  deriving DecidableEq, Repr

/-- The integer that a landmark is. -/
def Landmark.toInt : Landmark → Int
  | .zero => 0
  | .one => 1
  | .minusOne => -1

namespace Value

instance : Inhabited Value := ⟨.integer 0⟩
instance (n : Nat) : OfNat Value n := ⟨.integer n⟩

/-! ## Views -/

/-- How the value is written. -/
def nature : Value → Nature
  | integer _ => .integer
  | decimal _ => .decimal
  | ratio _ => .ratio

/-- Whether the value is written as a ratio. -/
def isRatio (v : Value) : Bool := v.nature == .ratio

/-- The numerator over the positive denominator that the representation shows;
a decimal is over its power of ten, not reduced. -/
def fraction : Value → Int × Nat
  | integer n => (n, 1)
  | decimal d => (d.mantissa, tenPow d.scale)
  | ratio q => (q.num, q.den)

/-- The number that a value is. -/
def toRat : Value → Rat
  | integer n => n
  | decimal d => d.toRat
  | ratio q => q

theorem fraction_den_pos (v : Value) : 0 < v.fraction.2 := by
  cases v with
  | integer n => exact Nat.one_pos
  | decimal d => exact tenPow_pos d.scale
  | ratio q => exact q.den_pos

/-! ## Sign and order -/

/-- The opposite number in the same representation. -/
def neg : Value → Value
  | integer n => integer (-n)
  | decimal d => decimal d.neg
  | ratio q => ratio (-q)

instance : Neg Value := ⟨neg⟩

/-- The sign: `-1`, `0` or `1`. -/
def sign (v : Value) : Int := v.fraction.1.sign

/-- The magnitude in the same representation. -/
def abs (v : Value) : Value := if v.sign < 0 then -v else v

/-- The order of two values as numbers.  Signs come first; only numbers of one sign
are cross multiplied. -/
def compare (a b : Value) : Ordering :=
  (Ord.compare a.sign b.sign).then
    (Ord.compare (a.fraction.1 * b.fraction.2) (b.fraction.1 * a.fraction.2))

/-- Whether two values are the same number, however they are written. -/
def equals (a b : Value) : Bool := a.compare b == .eq

/-- Whether the value is one of the landmark numbers, however it is written. -/
def is (v : Value) (l : Landmark) : Bool := v.fraction.1 == l.toInt * v.fraction.2

/-- Whether the value is zero. -/
def isZero (v : Value) : Bool := v.is .zero

/-! ## Conversions -/

/-- The numerator in lowest terms. -/
def numerator (v : Value) : Int := v.toRat.num

/-- The denominator in lowest terms. -/
def denominator (v : Value) : Nat := v.toRat.den

/-- The integer part: the fraction is cut off towards zero. -/
def truncate (v : Value) : Int := v.fraction.1.tdiv v.fraction.2

/-- The value as a decimal: an integer or a decimal as it is, a ratio rounded to
`digits` significant digits and freed of trailing zeros. -/
def toDecimal (digits : Nat) : Value → Decimal
  | integer n => ⟨n, 0⟩
  | decimal d => d
  | ratio q => (Decimal.significant q digits).normalize

/-- The significant digits kept where no precision is asked for. -/
def defaultPrecision : Nat := 34

/-- The number with exactly `places` digits after the point, the last of them
rounded, a half to the even digit. -/
def reading (v : Value) (places : Nat) : List Char :=
  let q := v.toRat
  Numeral.scaledText (Rounding.nearest (q.num * wordTenPow places) q.den) places

/-! ## Exact text -/

/-- The exact text of a value: a numeral, a numeral with a point, or two numerals
around a stroke. -/
def chars : Value → List Char
  | integer n => Numeral.signed n
  | decimal d => d.chars
  | ratio q => Numeral.signed q.num ++ '/' :: Numeral.digits q.den

/-- The exact text of a value. -/
def text (v : Value) : String := String.ofList v.chars

instance : ToString Value := ⟨text⟩

/-! ## Canonical form -/

/-- The form of every computed result.  A ratio is canonical if no power of ten
clears its denominator, that is, if some prime other than two and five divides
it. -/
def Canonical : Value → Prop
  | integer _ => True
  | decimal d => d.IsNormal
  | ratio q => ∀ k : Nat, ¬ q.den ∣ tenPow k

end Value
end Reckoner

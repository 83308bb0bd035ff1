import Reckoner.Powers

/-!
# Decimal numerals of whole numbers

How a natural number is written in base ten and read back.  Numbers here may
have hundreds of thousands of digits, so a numeral is not peeled off one digit
at a time: `block` cuts a number into two halves of equal width with one
division, and `digitCount` measures a number by its binary length before it
refines the answer.

* `digitCount n` is how many digits `n` has (zero has one);
* `fixed k n` are the last `k` digits of `n`, leading zeros included;
* `digits n` is the numeral of `n`, and `signed` that of an integer;
* `fixedPoint m s` writes `m / 10 ^ s` with a point before its last `s` digits, and so does
  `scaledText m s` up to the size of a word;
* `value cs` reads a run of digits back.
-/

namespace Reckoner
namespace Numeral

/-! ## Counting digits -/

/-- How many digits can surely be cut off a number of at least ten: three for
every ten bits, because `10 ^ 3 ≤ 2 ^ 10`, and never less than one. -/
def safeCut (n : Nat) : Nat := max 1 (3 * (n.log2 / 10))

/-- Digit count with a bound on the number of cuts. -/
def digitCountWithin : Nat → Nat → Nat
  | 0, _ => 1
  | fuel + 1, n =>
    if n < 10 then 1 else safeCut n + digitCountWithin fuel (n / tenPow (safeCut n))

/-- The number of decimal digits of `n`; zero counts for one digit.  Every cut
removes at least one digit, hence at least one bit, so the binary length bounds
the number of cuts. -/
def digitCount (n : Nat) : Nat := digitCountWithin (n.log2 + 1) n

/-! ## Writing -/

/-- The unit above a block of `2 ^ level` digits, by squaring. -/
def blockUnit : Nat → Nat
  | 0 => 10
  | level + 1 => blockUnit level * blockUnit level

/-- The last `2 ^ level` digits of `n`, leading zeros included.  The number is
halved at every level, which keeps the divisions few and balanced. -/
def block : Nat → Nat → List Char
  | 0, n => [Nat.digitChar (n % 10)]
  | level + 1, n =>
    let unit := blockUnit level
    block level (n / unit) ++ block level (n % unit)

theorem length_block (level n : Nat) : (block level n).length = twoPow level := by
  induction level generalizing n with
  | zero => rfl
  | succ level ih => simp [block, ih, twoPow_succ, Nat.mul_two]

/-- The last `k` digits of `n`, leading zeros included. -/
def fixed (k n : Nat) : List Char :=
  (block (k.log2 + 1) n).drop (twoPow (k.log2 + 1) - k)

theorem length_fixed (k n : Nat) : (fixed k n).length = k := by
  have h := lt_twoPow_log2_succ k
  simp only [fixed, List.length_drop, length_block]
  omega

/-- The numeral of a natural number, without leading zeros. -/
def digits (n : Nat) : List Char := fixed (digitCount n) n

/-- Puts a minus sign before a text if the number is negative. -/
def withSign (negative : Bool) (cs : List Char) : List Char :=
  if negative then '-' :: cs else cs

/-- The numeral of an integer. -/
def signed (n : Int) : List Char := withSign (n < 0) (digits n.natAbs)

/-- `m / unit` with `places` digits after the point, for a unit of at most
`10 ^ places`: at least one digit before the point, and no point when `places` is zero. -/
def pointed (m : Int) (unit places : Nat) : List Char :=
  if places = 0 then signed m
  else withSign (m < 0) (digits (m.natAbs / unit) ++ '.' :: fixed places (m.natAbs % unit))

/-- `m / 10 ^ scale` in positional notation, with exactly `scale` digits after the
point. -/
def fixedPoint (m : Int) (scale : Nat) : List Char := pointed m (tenPow scale) scale

/-- The same for a number of places that need not be a word. -/
def scaledText (m : Int) (places : Nat) : List Char := pointed m (wordTenPow places) places

/-! ## Reading -/

/-- The value of a digit character. -/
def digitValue (c : Char) : Nat := c.toNat - '0'.toNat

/-- The number that a run of digits denotes; the empty run denotes zero. -/
def value (cs : List Char) : Nat := cs.foldl (fun n c => 10 * n + digitValue c) 0

theorem value_append_singleton (cs : List Char) (c : Char) :
    value (cs ++ [c]) = 10 * value cs + digitValue c := by
  simp [value]

end Numeral
end Reckoner

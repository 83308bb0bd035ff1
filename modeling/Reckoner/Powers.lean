/-!
# Powers of ten and of two

The two units of this library: a decimal place is a power of ten, a binary place a
power of two.

A number of places is kept in a machine word.  Counts are words of 64 bits (`toSize`), but
powers of ten take an exponent of 32 bits: what a larger one has above them is lost
(`wordTenPow`).
-/

namespace Reckoner

/-- `10 ^ k`. -/
def tenPow (k : Nat) : Nat := Nat.pow 10 k

/-- `2 ^ k`. -/
def twoPow (k : Nat) : Nat := Nat.pow 2 k

/-- How many words of 32 bits there are. -/
def wordCount : Nat := 0x100000000

/-- What is left of a number in a word of 32 bits. -/
def toWord (n : Nat) : Nat := n % wordCount

/-- How many words of 64 bits there are. -/
def sizeCount : Nat := 0x10000000000000000

/-- What is left of a number in a word of 64 bits. -/
def toSize (n : Nat) : Nat := n % sizeCount

/-- `10 ^ k` as it is computed: of the exponent only the lower 32 bits count. -/
def wordTenPow (k : Nat) : Nat := tenPow (toWord k)

@[simp] theorem tenPow_zero : tenPow 0 = 1 := rfl

theorem tenPow_pos (k : Nat) : 0 < tenPow k := Nat.pow_pos (by decide)

theorem toWord_of_lt {n : Nat} (h : n < wordCount) : toWord n = n := Nat.mod_eq_of_lt h

theorem toWord_le (n : Nat) : toWord n ≤ n := Nat.mod_le n _

theorem toSize_of_lt {n : Nat} (h : n < sizeCount) : toSize n = n := Nat.mod_eq_of_lt h

theorem wordTenPow_of_lt {k : Nat} (h : k < wordCount) : wordTenPow k = tenPow k := by
  rw [wordTenPow, toWord_of_lt h]

@[simp] theorem wordTenPow_zero : wordTenPow 0 = 1 := rfl

theorem wordTenPow_pos (k : Nat) : 0 < wordTenPow k := tenPow_pos _

@[simp] theorem twoPow_zero : twoPow 0 = 1 := rfl

theorem twoPow_succ (k : Nat) : twoPow (k + 1) = twoPow k * 2 := rfl

theorem twoPow_pos (k : Nat) : 0 < twoPow k := Nat.pow_pos (by decide)

/-- A number is shorter than one more than its own binary length. -/
theorem lt_twoPow_log2_succ (n : Nat) : n < twoPow (n.log2 + 1) := Nat.lt_log2_self

end Reckoner

/-!
# Fractions of integers

A quotient of integers is brought to lowest terms in two steps: the sign of the
denominator goes to the numerator, and what the terms have in common, found by Euclid's
loop, is divided out.  The result is a `Rat`, and there is no other way to make one here
than to show that the loop has left coprime terms (`coprime_div_gcd`).
-/

namespace Reckoner

/-! ## Divisors and multiples -/

namespace Euclid

/-- Euclid's loop: while the second number is not zero, the two are replaced by it and
the remainder of the first. -/
def loop (a b : Nat) : Nat := if b = 0 then a else loop b (a % b)
termination_by b
decreasing_by exact Nat.mod_lt _ (Nat.pos_of_ne_zero ‹_›)

/-- The greatest common divisor of two integers, never negative. -/
def gcd (a b : Int) : Nat := loop a.natAbs b.natAbs

/-- The least common multiple of two integers, never negative; zero if one of them is. -/
def lcm (a b : Int) : Nat := if a = 0 ∨ b = 0 then 0 else (a.tdiv (gcd a b) * b).natAbs

theorem loop_eq (a b : Nat) : loop a b = Nat.gcd a b := by
  induction a, b using loop.induct with
  | case1 a => rw [loop, if_pos rfl, Nat.gcd_zero_right]
  | case2 a b hb ih =>
    rw [loop, if_neg hb, ih, Nat.gcd_comm a b, Nat.gcd_rec b a, Nat.gcd_comm (a % b)]

theorem gcd_eq (a b : Int) : gcd a b = Int.gcd a b := loop_eq _ _

theorem gcd_pos {a b : Int} (hb : b ≠ 0) : 0 < gcd a b := by
  rw [gcd_eq]
  exact Int.gcd_pos_of_ne_zero_right a hb

theorem gcd_dvd_right (a b : Int) : (gcd a b : Int) ∣ b := by
  rw [gcd_eq]
  exact Int.gcd_dvd_right a b

theorem tdiv_gcd_ne_zero {a b : Int} (hb : b ≠ 0) : b.tdiv (gcd a b) ≠ 0 := by
  intro h
  exact hb (by rw [← Int.tdiv_mul_cancel (gcd_dvd_right a b), h, Int.zero_mul])

/-- What the loop finds leaves nothing in common. -/
theorem coprime_tdiv_gcd {a b : Int} (hb : b ≠ 0) :
    (a.tdiv (gcd a b)).natAbs.Coprime (b.tdiv (gcd a b)).natAbs := by
  rw [Int.natAbs_tdiv, Int.natAbs_tdiv, Int.natAbs_natCast]
  have hpos := gcd_pos (a := a) hb
  rw [gcd_eq] at hpos ⊢
  exact Nat.coprime_div_gcd_div_gcd hpos

section

variable {a : Int} {d : Nat} (hd : 0 < d)

include hd

theorem div_gcd_ne_zero : d / gcd a d ≠ 0 := by
  have h := tdiv_gcd_ne_zero (a := a) (Int.natCast_ne_zero.2 (Nat.ne_of_gt hd))
  rwa [← Int.ofNat_tdiv, Int.natCast_ne_zero] at h

theorem coprime_div_gcd : (a.tdiv (gcd a d)).natAbs.Coprime (d / gcd a d) := by
  have h := coprime_tdiv_gcd (a := a) (Int.natCast_ne_zero.2 (Nat.ne_of_gt hd))
  rwa [← Int.ofNat_tdiv, Int.natAbs_natCast] at h

end

theorem coprime_of_gcd_eq_one {a : Int} {d : Nat} (h : gcd a d = 1) : a.natAbs.Coprime d := by
  rwa [gcd_eq] at h

end Euclid

/-! ## Lowest terms -/

/-- A quotient of integers with a positive denominator. -/
structure Fraction where
  num : Int
  den : Nat
  den_pos : 0 < den

namespace Fraction

/-- The quotient of two integers: the sign of the denominator goes to the numerator. -/
def ofInts (num den : Int) (hden : den ≠ 0) : Fraction where
  num := if den < 0 then -num else num
  den := den.natAbs
  den_pos := Int.natAbs_pos.2 hden

/-- Divides the greatest common divisor of the terms out, unless it is one. -/
def reduce (x : Fraction) : Rat :=
  let g := Euclid.gcd x.num x.den
  if hone : g = 1 then
    { num := x.num
      den := x.den
      den_nz := Nat.ne_of_gt x.den_pos
      reduced := Euclid.coprime_of_gcd_eq_one hone }
  else
    { num := x.num.tdiv g
      den := x.den / g
      den_nz := Euclid.div_gcd_ne_zero x.den_pos
      reduced := Euclid.coprime_div_gcd x.den_pos }

end Fraction
end Reckoner

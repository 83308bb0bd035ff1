import Mathlib
import Reckoner.FixedPoint.Trigonometry
import Reckoner.Proofs.FixedPoint.Recurrence

/-!
# The Taylor series of sine and cosine

The integer series is compared, term by term, with the exact series at the argument that its
integer stands for.

* `term_taylorBound`: the bound given to the loop reaches a zero term, for every argument, so
  the loop runs to its end.
* `term_taylorAt_eq_zero`: the integer series ends where the exact terms drop below one unit.
* `abs_term_taylorAt_sub_le`: for arguments up to four, no term is off by more than four units.
  The first two errors are amplified; then the error of a term is passed on divided by more than it
  is multiplied, and each step adds one.
* `abs_taylorScaled_sub_le`: so `taylorScaled` is within `4 w + 25` units of the exact partial
  sums, and of sine and cosine (`abs_taylorScaled_sub_sin_le`, `abs_taylorScaled_sub_cos_le`).
-/

namespace Reckoner
namespace FixedPoint

open Finset

/-! ## The recurrence -/

/-- By how much the factorial grows from the `j`-th degree to the next one, if the degrees
start at `n` and go up by two. -/
def degreeStep (n j : ℕ) : ℕ := (n + 2 * j + 1) * (n + 2 * j + 2)

theorem degreeStep_pos (n j : ℕ) : 0 < degreeStep n j := Nat.mul_pos (by omega) (by omega)

theorem degreeStep_mono {n n' j j' : ℕ} (hn : n ≤ n') (hj : j ≤ j') :
    degreeStep n j ≤ degreeStep n' j' :=
  Nat.mul_le_mul (by omega) (by omega)

theorem factorial_degreeStep (n j : ℕ) :
    (n + 2 * (j + 1)).factorial = (n + 2 * j).factorial * degreeStep n j := by
  rw [show n + 2 * (j + 1) = n + 2 * j + 1 + 1 by omega, Nat.factorial_succ, Nat.factorial_succ,
    degreeStep]
  ring

theorem taylorSeries_settles (r2 s : ℤ) (n : ℕ) : (taylorSeries r2 s n).Settles where
  next_zero j := by simp [taylorSeries]
  contribution_zero _ := rfl

/-! ## The end of the loop -/

section

variable {r2 s : ℤ} (n : ℕ) (first : ℤ)

theorem natAbs_next (t : ℤ) (j : ℕ) :
    ((taylorSeries r2 s n).next j t).natAbs =
      t.natAbs * r2.natAbs / (s.natAbs * degreeStep n j) := by
  have hnext : (taylorSeries r2 s n).next j t = (-(t * r2)).tdiv (s * (degreeStep n j : ℕ)) := rfl
  rw [hnext, Int.natAbs_tdiv, Int.natAbs_neg, Int.natAbs_mul, Int.natAbs_mul, Int.natAbs_natCast]
  rfl

variable (hs : s ≠ 0)
include hs

/-- A term is multiplied by at most the square of the argument, rounded up, and divided by the
growth of the factorial. -/
theorem natAbs_next_mul_le (t : ℤ) (j : ℕ) :
    ((taylorSeries r2 s n).next j t).natAbs * degreeStep n j ≤
      t.natAbs * ((r2.tdiv s).natAbs + 1) := by
  have hpos : 0 < s.natAbs := Int.natAbs_pos.2 hs
  have hsquare : r2.natAbs ≤ s.natAbs * ((r2.tdiv s).natAbs + 1) := by
    rw [Int.natAbs_tdiv]
    exact (Nat.lt_mul_div_succ _ hpos).le
  refine Nat.le_of_mul_le_mul_left ?_ hpos
  rw [natAbs_next]
  calc s.natAbs * (t.natAbs * r2.natAbs / (s.natAbs * degreeStep n j) * degreeStep n j)
      = t.natAbs * r2.natAbs / (s.natAbs * degreeStep n j) * (s.natAbs * degreeStep n j) := by ring
    _ ≤ t.natAbs * r2.natAbs := Nat.div_mul_le_self _ _
    _ ≤ t.natAbs * (s.natAbs * ((r2.tdiv s).natAbs + 1)) := Nat.mul_le_mul_left _ hsquare
    _ = s.natAbs * (t.natAbs * ((r2.tdiv s).natAbs + 1)) := by ring

/-- While the degree is small, each term is at most the previous one times the square. -/
theorem natAbs_term_le (j : ℕ) :
    ((taylorSeries r2 s n).term first j).natAbs ≤
      first.natAbs * ((r2.tdiv s).natAbs + 1) ^ j := by
  induction j with
  | zero => simp [Series.term]
  | succ j ih =>
    rw [Series.term]
    calc _ ≤ ((taylorSeries r2 s n).next j ((taylorSeries r2 s n).term first j)).natAbs *
          degreeStep n j := Nat.le_mul_of_pos_right _ (degreeStep_pos n j)
      _ ≤ ((taylorSeries r2 s n).term first j).natAbs * ((r2.tdiv s).natAbs + 1) :=
        natAbs_next_mul_le n hs _ j
      _ ≤ first.natAbs * ((r2.tdiv s).natAbs + 1) ^ j * ((r2.tdiv s).natAbs + 1) :=
        Nat.mul_le_mul_right _ ih
      _ = first.natAbs * ((r2.tdiv s).natAbs + 1) ^ (j + 1) := by ring

/-- Once the index has passed the square, the terms at least halve. -/
theorem two_mul_natAbs_next_le {j : ℕ} (hj : (r2.tdiv s).natAbs + 1 ≤ j) (t : ℤ) :
    2 * ((taylorSeries r2 s n).next j t).natAbs ≤ t.natAbs := by
  set square := (r2.tdiv s).natAbs + 1 with hsquare
  have hdivisor : 2 * square ≤ degreeStep n j := by
    calc 2 * square ≤ (0 + 2 * square + 1) * (0 + 2 * square + 2) := by nlinarith
      _ ≤ degreeStep n j := degreeStep_mono (Nat.zero_le n) hj
  refine Nat.le_of_mul_le_mul_right (c := square) ?_ (Nat.succ_pos _)
  calc _ = ((taylorSeries r2 s n).next j t).natAbs * (2 * square) := by ring
    _ ≤ ((taylorSeries r2 s n).next j t).natAbs * degreeStep n j := Nat.mul_le_mul_left _ hdivisor
    _ ≤ t.natAbs * square := natAbs_next_mul_le n hs t j

/-- The loop runs to a zero term, for every argument. -/
theorem term_taylorBound :
    (taylorSeries r2 s n).term first (taylorBound r2 s first) = 0 := by
  set square := (r2.tdiv s).natAbs + 1 with hsquare
  have hgrowth : ((taylorSeries r2 s n).term first square).natAbs <
      2 ^ (halvings first + square * (square.log2 + 1)) := by
    calc ((taylorSeries r2 s n).term first square).natAbs
        ≤ first.natAbs * square ^ square := natAbs_term_le n first hs square
      _ ≤ first.natAbs * 2 ^ (square * (square.log2 + 1)) := by
        rw [mul_comm square (square.log2 + 1), pow_mul]
        exact Nat.mul_le_mul_left _ (Nat.pow_le_pow_left (Nat.lt_log2_self).le _)
      _ < 2 ^ halvings first * 2 ^ (square * (square.log2 + 1)) :=
        Nat.mul_lt_mul_of_pos_right (natAbs_lt_halvings first) (by positivity)
      _ = _ := (pow_add ..).symm
  have hzero := Series.term_eq_zero_of_natAbs_lt
    (fun j t hj => two_mul_natAbs_next_le n hs hj t) hgrowth
  refine (taylorSeries_settles r2 s n).term_eq_zero ?_ hzero
  rw [taylorBound, ← hsquare]
  omega

end

/-! ## The exact terms -/

/-- The `j`-th term of the Taylor series at `R` of sine, if `n` is one, or of cosine, if `n`
is zero. -/
def taylorTerm (R : ℚ) (n j : ℕ) : ℚ := (-1) ^ j * R ^ (n + 2 * j) / (n + 2 * j).factorial

theorem taylorTerm_succ (R : ℚ) (n j : ℕ) :
    taylorTerm R n (j + 1) = -(taylorTerm R n j * R ^ 2) / degreeStep n j := by
  have hfactorial : ((n + 2 * j).factorial : ℚ) ≠ 0 := by positivity
  have hstep : (degreeStep n j : ℚ) ≠ 0 := by exact_mod_cast (degreeStep_pos n j).ne'
  rw [taylorTerm, taylorTerm, factorial_degreeStep]
  push_cast
  field_simp
  ring

section

variable {R : ℚ} {n : ℕ} (hR : |R| ≤ 4) (hn : n ≤ 1)
include hR

theorem sq_le_sixteen : R ^ 2 ≤ 16 := by
  rw [← sq_abs]
  nlinarith [abs_nonneg R]

/-- If the factorial grows by at least `d`, a term is at most sixteen `d`-ths of the one
before. -/
theorem abs_taylorTerm_succ_le {d j : ℕ} (hd : 0 < d) (hstep : d ≤ degreeStep n j) :
    |taylorTerm R n (j + 1)| ≤ |taylorTerm R n j| * (16 / d) := by
  have hd' : (0 : ℚ) < d := by exact_mod_cast hd
  have hstep' : (d : ℚ) ≤ degreeStep n j := by exact_mod_cast hstep
  rw [taylorTerm_succ, abs_div, abs_neg, abs_mul, Nat.abs_cast, mul_div_assoc, abs_sq]
  gcongr
  exact sq_le_sixteen hR

include hn

theorem abs_taylorTerm_zero_le : |taylorTerm R n 0| / degreeStep n 0 ≤ 2 / 3 := by
  rw [taylorTerm, degreeStep]
  obtain rfl | rfl := Nat.le_one_iff_eq_zero_or_eq_one.1 hn <;> norm_num
  linarith

theorem abs_taylorTerm_one_le : 80 / 3 + |taylorTerm R n 1| ≤ 3 * degreeStep n 1 := by
  have hR2 := sq_le_sixteen hR
  have hR3 : |R| ^ 3 ≤ 4 ^ 3 := by gcongr
  rw [taylorTerm, degreeStep, abs_div, abs_mul, abs_pow, abs_pow, Nat.abs_cast]
  obtain rfl | rfl := Nat.le_one_iff_eq_zero_or_eq_one.1 hn <;> norm_num [Nat.factorial] <;>
    linarith

theorem abs_taylorTerm_two_le : |taylorTerm R n 2| ≤ 11 := by
  have hR4 : |R| ^ 4 ≤ 4 ^ 4 := by gcongr
  have hR5 : |R| ^ 5 ≤ 4 ^ 5 := by gcongr
  rw [taylorTerm, abs_div, abs_mul, abs_pow, abs_pow, Nat.abs_cast]
  obtain rfl | rfl := Nat.le_one_iff_eq_zero_or_eq_one.1 hn <;> norm_num [Nat.factorial] <;>
    linarith

/-- The terms of degrees four and more decrease. -/
theorem abs_taylorTerm_le (j : ℕ) : |taylorTerm R n (2 + j)| ≤ 11 := by
  induction j with
  | zero => exact abs_taylorTerm_two_le hR hn
  | succ j ih =>
    have hstep : 30 ≤ degreeStep n (2 + j) :=
      (by decide : 30 ≤ degreeStep 0 2).trans (degreeStep_mono (Nat.zero_le n) (by omega))
    have h := abs_taylorTerm_succ_le hR (by norm_num) hstep
    have hnonneg := abs_nonneg (taylorTerm R n (2 + j))
    rw [← Nat.add_assoc]
    norm_num at h ⊢
    linarith

/-- From the sixth term on they drop to a tenth each time. -/
theorem abs_taylorTerm_tail_le (k : ℕ) : |taylorTerm R n (6 + k)| ≤ 1 / 25 / 10 ^ k := by
  induction k with
  | zero =>
    have h2 := abs_taylorTerm_two_le hR hn
    have h3 := abs_taylorTerm_succ_le (d := 30) hR (by norm_num)
      (degreeStep_mono (Nat.zero_le n) (le_refl 2))
    have h4 := abs_taylorTerm_succ_le (d := 56) hR (by norm_num)
      (degreeStep_mono (Nat.zero_le n) (le_refl 3))
    have h5 := abs_taylorTerm_succ_le (d := 90) hR (by norm_num)
      (degreeStep_mono (Nat.zero_le n) (le_refl 4))
    have h6 := abs_taylorTerm_succ_le (d := 132) hR (by norm_num)
      (degreeStep_mono (Nat.zero_le n) (le_refl 5))
    norm_num at h2 h3 h4 h5 h6 ⊢
    linarith
  | succ k ih =>
    have hstep : 160 ≤ degreeStep n (6 + k) :=
      (by decide : 160 ≤ degreeStep 0 6).trans (degreeStep_mono (Nat.zero_le n) (by omega))
    have h := abs_taylorTerm_succ_le hR (by norm_num) hstep
    rw [← Nat.add_assoc, pow_succ, ← div_div]
    norm_num at h ⊢
    linarith

end

/-! ## The integer terms -/

/-- The Taylor series that is summed at `r` units of `10 ^ -w`. -/
def taylorAt (r : ℤ) (w n : ℕ) : Series :=
  taylorSeries ((r * r).tdiv (wordTenPow w)) (wordTenPow w) n

theorem sq_div_tenPow_eq (r : ℤ) (w : ℕ) :
    ((r * r : ℤ) : ℚ) / ((wordTenPow w : ℕ) : ℤ) = 10 ^ toWord w * toRat r w ^ 2 := by
  rw [toRat_eq, wordTenPow_eq]
  push_cast
  field_simp

/-- The integer series multiplies by the square of the argument, which is cut off. -/
theorem taylorAt_follows (r : ℤ) (w n : ℕ) : (taylorAt r w n).Follows w (taylorTerm (toRat r w) n)
    (-(r * r).tdiv (wordTenPow w)) (-toRat r w ^ 2) 1 (degreeStep n) where
  pos j := degreeStep_pos n j
  next_eq j t := by
    rw [Int.mul_neg]
    rfl
  exact_succ j := by
    rw [taylorTerm_succ]
    ring
  abs_le := by
    rw [toRat_neg, abs_neg, abs_neg]
    exact abs_toRat_tdiv_le (sq_div_tenPow_eq r w)
  abs_sub_le := by
    rw [toRat_neg, neg_sub_neg, abs_sub_comm]
    exact abs_toRat_tdiv_sub_le (sq_div_tenPow_eq r w) (by exact_mod_cast wordTenPow_pos w)

section

variable {r first : ℤ} {w n : ℕ} (hR : |toRat r w| ≤ 4) (hn : n ≤ 1)
  (hfirst : (first : ℚ) = 10 ^ toWord w * taylorTerm (toRat r w) n 0)

section

include hfirst

theorem abs_first_le : |(first : ℚ)| ≤ 10 ^ toWord w * |taylorTerm (toRat r w) n 0| := by
  rw [hfirst, abs_mul, abs_of_pos (by positivity : (0 : ℚ) < 10 ^ toWord w)]

include hR in
/-- What an error becomes in one step, at arguments up to four. -/
theorem abs_term_taylorAt_succ_sub_le {j : ℕ} {c : ℚ}
    (hj : |((taylorAt r w n).term first j : ℚ) - 10 ^ toWord w * taylorTerm (toRat r w) n j| ≤ c) :
    |((taylorAt r w n).term first (j + 1) : ℚ) - 10 ^ toWord w * taylorTerm (toRat r w) n (j + 1)| ≤
      (c * 16 + |taylorTerm (toRat r w) n j|) / degreeStep n j + 1 := by
  have hsquare : |-toRat r w ^ 2| ≤ 16 := by
    rw [abs_neg, abs_sq]
    exact sq_le_sixteen hR
  have hnonneg : 0 ≤ c := (abs_nonneg _).trans hj
  refine ((taylorAt_follows r w n).abs_term_succ_sub_le (abs_first_le hfirst) j).trans ?_
  rw [one_mul]
  gcongr

end

include hR hn hfirst

theorem abs_term_taylorAt_one_sub_le :
    |((taylorAt r w n).term first 1 : ℚ) - 10 ^ toWord w * taylorTerm (toRat r w) n 1| ≤ 5 / 3 := by
  have hzero :
      |((taylorAt r w n).term first 0 : ℚ) - 10 ^ toWord w * taylorTerm (toRat r w) n 0| ≤ 0 := by
    rw [Series.term, hfirst, sub_self, abs_zero]
  have hstep := abs_term_taylorAt_succ_sub_le hR hfirst hzero
  simp only [zero_mul, zero_add] at hstep
  linarith [abs_taylorTerm_zero_le hR hn]

/-- From the third term on the factorial has outgrown the square of the argument: the error of a
term is passed on divided by more than it is multiplied. -/
theorem abs_term_taylorAt_two_add_sub_le (i : ℕ) :
    |((taylorAt r w n).term first (2 + i) : ℚ) - 10 ^ toWord w * taylorTerm (toRat r w) n (2 + i)| ≤
      4 := by
  induction i with
  | zero =>
    refine (abs_term_taylorAt_succ_sub_le hR hfirst
      (abs_term_taylorAt_one_sub_le hR hn hfirst)).trans ?_
    rw [← le_sub_iff_add_le, div_le_iff₀ (by exact_mod_cast degreeStep_pos n 1)]
    linarith [abs_taylorTerm_one_le hR hn]
  | succ i ih =>
    have hstep : (30 : ℚ) ≤ degreeStep n (2 + i) := by
      exact_mod_cast (by decide : 30 ≤ degreeStep 0 2).trans
        (degreeStep_mono (Nat.zero_le n) (by omega))
    refine (abs_term_taylorAt_succ_sub_le hR hfirst ih).trans ?_
    rw [← le_sub_iff_add_le, div_le_iff₀ (by linarith)]
    linarith [abs_taylorTerm_le hR hn i]

/-- No term is off by more than four units. -/
theorem abs_term_taylorAt_sub_le (j : ℕ) :
    |((taylorAt r w n).term first j : ℚ) - 10 ^ toWord w * taylorTerm (toRat r w) n j| ≤ 4 := by
  obtain rfl | rfl | hj : j = 0 ∨ j = 1 ∨ 2 ≤ j := by omega
  · rw [Series.term, hfirst, sub_self, abs_zero]
    norm_num
  · exact (abs_term_taylorAt_one_sub_le hR hn hfirst).trans (by norm_num)
  · obtain ⟨i, rfl⟩ := Nat.exists_eq_add_of_le hj
    exact abs_term_taylorAt_two_add_sub_le hR hn hfirst i

/-- Where the exact terms have dropped below a unit, the integer terms are zero. -/
theorem term_taylorAt_eq_zero : (taylorAt r w n).term first (toWord w + 6) = 0 := by
  refine (taylorAt_follows r w n).term_eq_zero (abs_first_le hfirst) ?_
  refine (tenPow_mul_abs_le (abs_taylorTerm_tail_le hR hn) (toWord w) 0).trans_lt ?_
  norm_num

/-- **The Taylor kernel is accurate.**  The integer sum differs from the exact partial sums, in
units, by at most four units for each term before the end, and one for the terms after it. -/
theorem abs_taylorScaled_sub_le {N : ℕ} (hN : toWord w + 6 ≤ N) :
    |(taylorScaled r first n w : ℚ) - 10 ^ toWord w * ∑ j ∈ range N, taylorTerm (toRat r w) n j| ≤
      4 * toWord w + 25 := by
  refine ((taylorSeries_settles _ _ n).abs_sum_sub_le (by positivity)
    (term_taylorBound n first (by exact_mod_cast (wordTenPow_pos w).ne'))
    (term_taylorAt_eq_zero hR hn hfirst) (abs_term_taylorAt_sub_le hR hn hfirst)
    (tenPow_mul_abs_le (abs_taylorTerm_tail_le hR hn) (toWord w)) (by norm_num) (by norm_num)
    (by norm_num) hN).trans_eq ?_
  push_cast
  ring

end

/-! ## Sine and cosine -/

theorem taylorTerm_one (R : ℚ) (j : ℕ) :
    taylorTerm R 1 j = (-1) ^ j * R ^ (2 * j + 1) / (2 * j + 1).factorial := by
  rw [taylorTerm, Nat.add_comm 1]

theorem taylorTerm_zero (R : ℚ) (j : ℕ) :
    taylorTerm R 0 j = (-1) ^ j * R ^ (2 * j) / (2 * j).factorial := by
  rw [taylorTerm, Nat.zero_add]

section

variable (r : ℤ) (w : ℕ)

theorem first_eq_taylorTerm_one : (r : ℚ) = 10 ^ toWord w * taylorTerm (toRat r w) 1 0 := by
  rw [taylorTerm, toRat_eq]
  norm_num
  field_simp

theorem first_eq_taylorTerm_zero :
    (((wordTenPow w : ℕ) : ℤ) : ℚ) = 10 ^ toWord w * taylorTerm (toRat r w) 0 0 := by
  rw [taylorTerm, wordTenPow_eq]
  norm_num

end

section

variable {r : ℤ} {w : ℕ} (hR : |toRat r w| ≤ 4)
include hR

theorem abs_taylorScaled_sub_sin_le :
    |(taylorScaled r r 1 w : ℝ) - 10 ^ toWord w * Real.sin (toRat r w)| ≤ 4 * toWord w + 25 := by
  have hsum : HasSum (fun j => (taylorTerm (toRat r w) 1 j : ℝ)) (Real.sin (toRat r w)) := by
    simpa [taylorTerm_one] using Real.hasSum_sin (toRat r w)
  have h := abs_sub_mul_le_of_hasSum hsum fun N hN =>
    abs_taylorScaled_sub_le hR le_rfl (first_eq_taylorTerm_one r w) (N := N) hN
  push_cast at h
  exact h

theorem abs_taylorScaled_sub_cos_le :
    |(taylorScaled r (wordTenPow w) 0 w : ℝ) - 10 ^ toWord w * Real.cos (toRat r w)| ≤
      4 * toWord w + 25 := by
  have hsum : HasSum (fun j => (taylorTerm (toRat r w) 0 j : ℝ)) (Real.cos (toRat r w)) := by
    simpa [taylorTerm_zero] using Real.hasSum_cos (toRat r w)
  have h := abs_sub_mul_le_of_hasSum hsum fun N hN =>
    abs_taylorScaled_sub_le hR (Nat.zero_le 1) (first_eq_taylorTerm_zero r w) (N := N) hN
  push_cast at h
  exact h

end

end FixedPoint
end Reckoner

import Mathlib
import Reckoner.FixedPoint.Exponential
import Reckoner.Proofs.FixedPoint.Hyperbolic
import Reckoner.Proofs.FixedPoint.Recurrence

/-!
# The exponential keeps its digits

The argument is reduced by the nearest multiple of `ln 2`, and what is left, at most half of `ln 2`,
goes into the exponential series.

* Each integer term of the series is within two units of its exact one, and from the fifth on they
  drop to a tenth each time: `w + 5` of them make the sum, which is within `2 * w + 11` units of the
  exponential (`abs_sum_expAt_sub_exp_le`).
* What is left after the reduction is off by the error of `ln 2`, as often as it is taken off
  (`abs_toRat_expRest_sub_le`).  The largest power of two that is accepted bounds the argument
  (`integerDigits_le_ten`), and the digits of the argument, which are added to the width, bound how
  often `ln 2` is taken off (`abs_binaryPart_le`).
* The guard digits absorb both errors (`expWidth_error_le`): relative to its magnitude, the result
  is within a tenth of a unit of the last digit that is asked for (`abs_exp_sub_le`).  A result that
  is this close to the exponential at two precisions is positive and keeps its digits between them
  (`exp_refines`), whether or not both reduced the argument by the same multiple.
-/

namespace Reckoner
namespace FixedPoint

open Finset

/-! ## The series -/

theorem expSeries_settles (r s : ℤ) : (expSeries r s).Settles where
  next_zero j := by simp [expSeries]
  contribution_zero _ := rfl

/-- The `j`-th term of the exponential series. -/
def expTerm (R : ℚ) (j : ℕ) : ℚ := R ^ j / j.factorial

theorem expTerm_succ (R : ℚ) (j : ℕ) : expTerm R (j + 1) = expTerm R j * R / (j + 1 : ℕ) := by
  rw [expTerm, expTerm, Nat.factorial_succ]
  push_cast
  field_simp
  ring

section

variable {R : ℚ} (hR : |R| ≤ 1 / 2)
include hR

/-- From the fifth term on they drop to a tenth each time. -/
theorem abs_expTerm_tail_le (k : ℕ) : |expTerm R (5 + k)| ≤ 1 / 3840 / 10 ^ k := by
  induction k with
  | zero =>
    rw [expTerm, abs_div, abs_pow, Nat.abs_cast]
    calc |R| ^ 5 / (Nat.factorial 5 : ℚ) ≤ (1 / 2) ^ 5 / (Nat.factorial 5 : ℚ) := by gcongr
      _ = 1 / 3840 / 10 ^ 0 := by norm_num [Nat.factorial]
  | succ k ih =>
    have hindex : (5 : ℚ) ≤ (5 + k + 1 : ℕ) := by exact_mod_cast (by omega : 5 ≤ 5 + k + 1)
    rw [← Nat.add_assoc, expTerm_succ, abs_div, abs_mul, Nat.abs_cast]
    calc |expTerm R (5 + k)| * |R| / (5 + k + 1 : ℕ) ≤ 1 / 3840 / 10 ^ k * (1 / 2) / 5 := by gcongr
      _ = 1 / 3840 / 10 ^ (k + 1) := by
        rw [pow_succ]
        field_simp
        norm_num

end

theorem hasSum_expTerm (R : ℚ) : HasSum (fun j => (expTerm R j : ℝ)) (Real.exp R) := by
  have hterm : (fun j => (expTerm R j : ℝ)) = fun j => (R : ℝ) ^ j / j.factorial := by
    funext j
    rw [expTerm]
    push_cast
    rfl
  rw [hterm, Real.exp_eq_exp_ℝ]
  exact NormedSpace.expSeries_div_hasSum_exp (R : ℝ)

/-! ## The integer terms -/

/-- The exponential series that is summed at `r` units of `10 ^ -w`. -/
def expAt (r : ℤ) (w : ℕ) : Series := expSeries r (wordTenPow w)

section

theorem expAt_follows (r : ℤ) (w : ℕ) :
    (expAt r w).Follows w (expTerm (toRat r w)) r (toRat r w) 0 (· + 1) where
  pos j := Nat.succ_pos j
  next_eq _ _ := rfl
  exact_succ := expTerm_succ (toRat r w)
  abs_le := le_rfl
  abs_sub_le := by simp

theorem abs_tenPow_le_expTerm (r : ℤ) (w : ℕ) :
    |((wordTenPow w : ℤ) : ℚ)| ≤ 10 ^ toWord w * |expTerm (toRat r w) 0| := by
  simp [expTerm, wordTenPow_eq]

variable {r : ℤ} {w : ℕ}

variable (hr : 2 * |r| ≤ wordTenPow w)
include hr

theorem abs_toRat_le_half : |toRat r w| ≤ 1 / 2 := by
  have h : 2 * |(r : ℚ)| ≤ 10 ^ toWord w := by
    have h' : ((2 * |r| : ℤ) : ℚ) ≤ ((wordTenPow w : ℤ) : ℚ) := by exact_mod_cast hr
    rw [wordTenPow_eq] at h'
    push_cast at h'
    exact h'
  refine abs_toRat_le ?_
  linarith

/-- The loop runs to a zero term. -/
theorem term_expAt_halvings (first : ℤ) : (expAt r w).term first (halvings first) = 0 := by
  have hhalf : 2 * r.natAbs ≤ wordTenPow w := by
    rw [Int.abs_eq_natAbs] at hr
    exact_mod_cast hr
  refine Series.term_halvings (fun j t => two_mul_natAbs_tdiv_le t ?_) first
  rw [Int.natAbs_mul, Int.natAbs_natCast]
  exact hhalf.trans (Nat.le_mul_of_pos_right _ (by omega))

/-- The error of a term is passed on at most halved, and a division adds less than a unit. -/
theorem abs_term_expAt_sub_le (j : ℕ) :
    |((expAt r w).term (wordTenPow w) j : ℚ) - 10 ^ toWord w * expTerm (toRat r w) j| ≤ 2 := by
  induction j with
  | zero => simp [Series.term, expTerm, wordTenPow_eq]
  | succ j ih =>
    have hstep := (expAt_follows r w).abs_term_succ_sub_le (abs_tenPow_le_expTerm r w) j
    have hindex : (1 : ℚ) ≤ (j + 1 : ℕ) := by exact_mod_cast Nat.le_add_left 1 j
    have hpassed :
        |((expAt r w).term (wordTenPow w) j : ℚ) - 10 ^ toWord w * expTerm (toRat r w) j| *
          |toRat r w| / (j + 1 : ℕ) ≤ 2 * (1 / 2) / 1 := by
      gcongr
      exact abs_toRat_le_half hr
    rw [zero_mul, add_zero] at hstep
    exact hstep.trans (by linarith only [hpassed])

/-- Where the exact terms have dropped below a unit, the integer terms are zero. -/
theorem term_expAt_eq_zero : (expAt r w).term (wordTenPow w) (toWord w + 5) = 0 := by
  refine (expAt_follows r w).term_eq_zero (abs_tenPow_le_expTerm r w) ?_
  refine (tenPow_mul_abs_le (abs_expTerm_tail_le (abs_toRat_le_half hr)) (toWord w) 0).trans_lt ?_
  norm_num

/-- The integer sum differs from the exact partial sums by at most two units for each term before
the end, and one for the terms after it. -/
theorem abs_sum_expAt_sub_le {N : ℕ} (hN : toWord w + 5 ≤ N) :
    |((expAt r w).sum (halvings (wordTenPow w)) (wordTenPow w) : ℚ) -
      10 ^ toWord w * ∑ j ∈ range N, expTerm (toRat r w) j| ≤ 2 * toWord w + 11 := by
  refine ((expSeries_settles _ _).abs_sum_sub_le (by positivity) (term_expAt_halvings hr _)
    (term_expAt_eq_zero hr) (abs_term_expAt_sub_le hr)
    (tenPow_mul_abs_le (abs_expTerm_tail_le (abs_toRat_le_half hr)) (toWord w)) (by norm_num)
    (by norm_num) (by norm_num) hN).trans_eq ?_
  push_cast
  ring

/-- **The exponential series is accurate.** -/
theorem abs_sum_expAt_sub_exp_le :
    |((expAt r w).sum (halvings (wordTenPow w)) (wordTenPow w) : ℝ) -
      10 ^ toWord w * Real.exp (toRat r w)| ≤ 2 * toWord w + 11 := by
  have h := abs_sub_mul_le_of_hasSum (hasSum_expTerm (toRat r w))
    fun N hN => abs_sum_expAt_sub_le hr (N := N) hN
  push_cast at h
  exact h

end

/-! ## Reduction -/

theorem atanhScaled_congr (zn zd : ℤ) {v w : ℕ} (h : toWord v = toWord w) :
    atanhScaled zn zd v = atanhScaled zn zd w := by
  rw [atanhScaled, atanhScaled, wordTenPow, wordTenPow, h]

/-- From three decimals on the error of `ln 2` is at most a tenth. -/
theorem ln2_error_le {n : ℕ} (hn : 3 ≤ n) : 8 * (n : ℝ) + 2 ≤ 1 / 10 * 10 ^ n := by
  induction n, hn using Nat.le_induction with
  | base => norm_num
  | succ n hn ih =>
    have hunit : (10 : ℝ) ^ 3 ≤ 10 ^ n := pow_le_pow_right₀ (by norm_num) hn
    rw [pow_succ]
    push_cast
    linarith

theorem ln2Scaled_bounds_of_three_le {w : ℕ} (hw : 3 ≤ toWord w) :
    10 ^ toWord w / 2 ≤ (ln2Scaled w : ℝ) ∧ (ln2Scaled w : ℝ) ≤ 4 / 5 * 10 ^ toWord w := by
  have herror := ln2_error_le hw
  have h := abs_le.1 (abs_ln2Scaled_sub_log_le w)
  have hunit : (0 : ℝ) < 10 ^ toWord w := by positivity
  have hlow := Real.log_two_gt_d9
  have hhigh := Real.log_two_lt_d9
  constructor <;> nlinarith

/-- As long as there is a decimal, `ln 2` comes out between a half and four fifths. -/
theorem ln2Scaled_bounds {w : ℕ} (hw : toWord w ≠ 0) :
    10 ^ toWord w / 2 ≤ (ln2Scaled w : ℝ) ∧ (ln2Scaled w : ℝ) ≤ 4 / 5 * 10 ^ toWord w := by
  obtain hone | htwo | hthree : toWord w = 1 ∨ toWord w = 2 ∨ 3 ≤ toWord w := by omega
  · have hvalue : ln2Scaled w = 6 := by
      rw [ln2Scaled, atanhScaled_congr 1 3 (w := 1) hone]
      decide +kernel
    rw [hvalue, hone]
    norm_num
  · have hvalue : ln2Scaled w = 68 := by
      rw [ln2Scaled, atanhScaled_congr 1 3 (w := 2) htwo]
      decide +kernel
    rw [hvalue, htwo]
    norm_num
  · exact ln2Scaled_bounds_of_three_le hthree

/-- Without a decimal it comes out as zero. -/
theorem ln2Scaled_eq_zero {w : ℕ} (hw : toWord w = 0) : ln2Scaled w = 0 := by
  rw [ln2Scaled, atanhScaled_congr 1 3 (w := 0) hw]
  decide +kernel

theorem ln2Scaled_pos {w : ℕ} (hw : toWord w ≠ 0) : 0 < ln2Scaled w := by
  have hunit : (0 : ℝ) < 10 ^ toWord w := by positivity
  exact_mod_cast (by linarith [(ln2Scaled_bounds hw).1] : (0 : ℝ) < ln2Scaled w)

/-- How many times `ln 2` is taken off. -/
def binaryPart (z : ℤ) (w : ℕ) : ℤ := Rounding.nearest z (ln2Scaled w)

/-- What is left. -/
def expRest (z : ℤ) (w : ℕ) : ℤ := z - binaryPart z w * ln2Scaled w

/-- The exponential of what is left, in units of `10 ^ -w`. -/
def expRestScaled (z : ℤ) (w : ℕ) : ℤ :=
  (expAt (expRest z w) w).sum (halvings (wordTenPow w)) (wordTenPow w)

/-- The reduction divides by `ln 2`, which is not possible where it comes out as zero. -/
theorem expScaled_of_toWord_eq_zero (z : ℤ) {w : ℕ} (hw : toWord w = 0) :
    expScaled z w = .error (.arithmetic .crash) := by
  unfold expScaled
  exact if_pos (ln2Scaled_eq_zero hw)

theorem mkRat_mul_twoPow (v : ℤ) (w q : ℕ) :
    mkRat (v * twoPow q) (wordTenPow w) = toRat v w * 2 ^ q := by
  rw [Rat.mkRat_eq_div, wordTenPow_eq, toRat_eq, show twoPow q = 2 ^ q from rfl]
  push_cast
  exact mul_div_right_comm _ _ _

theorem mkRat_div_twoPow (v : ℤ) (w q : ℕ) :
    mkRat v (wordTenPow w * twoPow q) = toRat v w / 2 ^ q := by
  rw [Rat.mkRat_eq_div, wordTenPow_eq, toRat_eq, div_div, show twoPow q = 2 ^ q from rfl]
  push_cast
  rfl

theorem exists_of_expScaled {z : ℤ} {w : ℕ} {a : ℚ} (h : expScaled z w = .ok a) :
    toWord w ≠ 0 ∧ (binaryPart z w).natAbs ≤ binaryExponentLimit ∧
      a = toRat (expRestScaled z w) w * 2 ^ binaryPart z w := by
  have hw : toWord w ≠ 0 := by
    intro hzero
    rw [expScaled_of_toWord_eq_zero z hzero] at h
    cases h
  unfold expScaled at h
  simp only [] at h
  rw [if_neg (ln2Scaled_pos hw).ne'] at h
  split at h
  · cases h
  · rename_i hlimit
    refine ⟨hw, not_lt.1 hlimit, ?_⟩
    have hsum : (expSeries (z - Rounding.nearest z (ln2Scaled w) * ln2Scaled w) (wordTenPow w)).sum
      (halvings (wordTenPow w)) (wordTenPow w) = expRestScaled z w := rfl
    have hpart : Rounding.nearest z (ln2Scaled w) = binaryPart z w := rfl
    rw [hsum, hpart] at h
    cases h
    cases binaryPart z w with
    | ofNat q =>
      rw [Int.ofNat_eq_natCast, zpow_natCast]
      exact mkRat_mul_twoPow _ w q
    | negSucc q =>
      rw [zpow_negSucc, ← div_eq_mul_inv]
      exact mkRat_div_twoPow _ w (q + 1)

section

variable {z : ℤ} {w : ℕ} (hw : toWord w ≠ 0)
include hw

/-- What is left is at most half of `ln 2`. -/
theorem two_mul_abs_expRest_le (z : ℤ) : 2 * |expRest z w| ≤ ln2Scaled w :=
  Rounding.two_mul_abs_sub_nearest_le z (ln2Scaled_pos hw)

theorem two_mul_abs_expRest_le_unit (z : ℤ) : 2 * |expRest z w| ≤ wordTenPow w := by
  have hunit : (0 : ℝ) < 10 ^ toWord w := by positivity
  have hle : ln2Scaled w ≤ wordTenPow w := by
    have h : (ln2Scaled w : ℝ) ≤ ((wordTenPow w : ℕ) : ℝ) := by
      rw [wordTenPow_eq]
      push_cast
      linarith [(ln2Scaled_bounds hw).2]
    exact_mod_cast h
  exact (two_mul_abs_expRest_le hw z).trans hle

theorem abs_toRat_expRestScaled_sub_le (z : ℤ) :
    |(toRat (expRestScaled z w) w : ℝ) - Real.exp (toRat (expRest z w) w)| ≤
      (2 * toWord w + 11) / 10 ^ toWord w := by
  have hunit : (0 : ℝ) < 10 ^ toWord w := by positivity
  rw [toRat_eq, le_div_iff₀' hunit, ← abs_of_pos hunit, ← abs_mul, mul_sub]
  push_cast
  rw [mul_div_cancel₀ _ hunit.ne']
  exact abs_sum_expAt_sub_exp_le (two_mul_abs_expRest_le_unit hw z)

end

/-! ## Accuracy -/

/-- The multiples of `ln 2` that are taken off come back as a power of two. -/
theorem exp_eq_mul_zpow (x : ℝ) (q : ℤ) :
    Real.exp x = Real.exp (x - q * Real.log 2) * 2 ^ q := by
  rw [← Real.rpow_intCast, Real.rpow_def_of_pos two_pos, ← Real.exp_add, mul_comm (q : ℝ),
    sub_add_cancel]

/-- An approximation of `exp R` also approximates `exp y` for a number `y` close to `R`, if these
are not far below zero. -/
theorem abs_sub_exp_le {v R y ε δ : ℝ} (hv : |v - Real.exp R| ≤ ε) (hy : |R - y| ≤ δ)
    (hδ : δ ≤ 1 / 4) (hR : -(1 / 2) ≤ R) : |v - Real.exp y| ≤ (4 * ε + 2 * δ) * Real.exp y := by
  have hfactor : Real.exp R = Real.exp y * Real.exp (R - y) := by
    rw [← Real.exp_add, add_sub_cancel]
  have hmoved : |Real.exp R - Real.exp y| ≤ 2 * δ * Real.exp y := by
    have h := Real.abs_exp_sub_one_le (x := R - y) (hy.trans (by linarith))
    rw [hfactor, ← mul_sub_one, abs_mul, abs_of_pos (Real.exp_pos y), mul_comm]
    gcongr
    linarith
  have hlow : 1 / 4 ≤ Real.exp y := by
    have h := Real.add_one_le_exp y
    linarith [(abs_le.1 hy).2]
  have hε : ε ≤ 4 * ε * Real.exp y := by
    have hnonneg := (abs_nonneg _).trans hv
    nlinarith
  calc |v - Real.exp y| ≤ |v - Real.exp R| + |Real.exp R - Real.exp y| := abs_sub_le _ _ _
    _ ≤ (4 * ε + 2 * δ) * Real.exp y := by linarith

section

variable (x : ℚ) {w : ℕ} (hw : toWord w ≠ 0)

theorem expRest_eq (z : ℤ) (w : ℕ) :
    (expRest z w : ℝ) = z - binaryPart z w * ln2Scaled w := by
  rw [expRest]
  push_cast
  rfl

/-- What is left is off by what the argument loses in rounding, and by the error of `ln 2` as
often as it is taken off. -/
theorem abs_toRat_expRest_sub_le :
    |(toRat (expRest (ofRat x w) w) w : ℝ) - (x - binaryPart (ofRat x w) w * Real.log 2)| ≤
      (1 / 2 + |(binaryPart (ofRat x w) w : ℝ)| * (8 * toWord w + 2)) / 10 ^ toWord w := by
  set q := binaryPart (ofRat x w) w with hq
  have hunit : (0 : ℝ) < 10 ^ toWord w := by positivity
  have hsplit : (toRat (expRest (ofRat x w) w) w : ℝ) - (x - q * Real.log 2) =
      ((ofRat x w - 10 ^ toWord w * x) - q * (ln2Scaled w - 10 ^ toWord w * Real.log 2)) /
        10 ^ toWord w := by
    rw [toRat_eq]
    push_cast
    rw [expRest_eq, ← hq]
    field_simp
    ring
  rw [hsplit, abs_div, abs_of_pos hunit]
  gcongr
  calc _ ≤ |(ofRat x w : ℝ) - 10 ^ toWord w * x| +
        |q * (ln2Scaled w - 10 ^ toWord w * Real.log 2)| := abs_sub _ _
    _ ≤ 1 / 2 + |(q : ℝ)| * (8 * toWord w + 2) := by
      rw [abs_mul]
      gcongr
      · exact abs_ofRat_sub_mul_le x w
      · exact abs_ln2Scaled_sub_log_le w

include hw

/-- The multiples of `ln 2` that are taken off differ from the argument by half of one. -/
theorem abs_abs_ofRat_sub_le :
    |10 ^ toWord w * |(x : ℝ)| - |(binaryPart (ofRat x w) w : ℝ)| * ln2Scaled w| ≤
      ln2Scaled w / 2 + 1 / 2 := by
  set q := binaryPart (ofRat x w) w with hq
  have hln2 : (0 : ℝ) < ln2Scaled w := by exact_mod_cast ln2Scaled_pos hw
  have hunit : (0 : ℝ) < 10 ^ toWord w := by positivity
  have hrest : |(ofRat x w : ℝ) - q * ln2Scaled w| ≤ ln2Scaled w / 2 := by
    have h : 2 * (|expRest (ofRat x w) w| : ℝ) ≤ ln2Scaled w := by
      exact_mod_cast two_mul_abs_expRest_le hw (ofRat x w)
    rw [expRest_eq, ← hq] at h
    linarith
  calc _ = |(|10 ^ toWord w * (x : ℝ)| - |(q : ℝ) * ln2Scaled w|)| := by
        rw [abs_mul, abs_mul, abs_of_pos hunit, abs_of_pos hln2]
    _ ≤ |10 ^ toWord w * (x : ℝ) - q * ln2Scaled w| := abs_abs_sub_abs_le _ _
    _ ≤ |10 ^ toWord w * (x : ℝ) - ofRat x w| + |(ofRat x w : ℝ) - q * ln2Scaled w| :=
        abs_sub_le _ _ _
    _ ≤ ln2Scaled w / 2 + 1 / 2 := by
        rw [abs_sub_comm]
        linarith [abs_ofRat_sub_mul_le x w]

theorem abs_binaryPart_le :
    |(binaryPart (ofRat x w) w : ℝ)| ≤ 3 * 10 ^ integerDigits x := by
  have hbounds := ln2Scaled_bounds hw
  have hclose := (abs_le.1 (abs_abs_ofRat_sub_le x hw)).1
  have hx : |(x : ℝ)| ≤ 10 ^ integerDigits x := by
    exact_mod_cast (abs_lt_tenPow_integerDigits x).le
  have hdigits : (1 : ℝ) ≤ 10 ^ integerDigits x := one_le_pow₀ (by norm_num)
  have hunit : (10 : ℝ) ≤ 10 ^ toWord w := le_self_pow₀ (by norm_num) (by omega)
  have hln2 : (0 : ℝ) < ln2Scaled w := by linarith
  refine le_of_mul_le_mul_right ?_ hln2
  calc |(binaryPart (ofRat x w) w : ℝ)| * ln2Scaled w
      ≤ 10 ^ toWord w * 10 ^ integerDigits x + ln2Scaled w / 2 + 1 / 2 := by
        have h : (10 : ℝ) ^ toWord w * |(x : ℝ)| ≤ 10 ^ toWord w * 10 ^ integerDigits x := by
          gcongr
        linarith
    _ ≤ 2 * ln2Scaled w * 10 ^ integerDigits x + ln2Scaled w * 1 := by
        have h : (10 : ℝ) ^ toWord w * 10 ^ integerDigits x ≤
            2 * ln2Scaled w * 10 ^ integerDigits x := by
          gcongr
          linarith
        linarith
    _ ≤ 2 * ln2Scaled w * 10 ^ integerDigits x + ln2Scaled w * 10 ^ integerDigits x := by gcongr
    _ = 3 * 10 ^ integerDigits x * ln2Scaled w := by ring

/-- The limit of the binary exponent bounds the argument. -/
theorem integerDigits_le_ten
    (hlimit : (binaryPart (ofRat x w) w).natAbs ≤ binaryExponentLimit) : integerDigits x ≤ 10 := by
  by_contra hlong
  have hlarge : (10 : ℝ) ^ 10 ≤ |(x : ℝ)| := by
    exact_mod_cast tenPow_le_of_integerDigits (not_le.1 hlong)
  have hpart : |(binaryPart (ofRat x w) w : ℝ)| ≤ 2 ^ 32 - 1 := by
    have h : (((binaryPart (ofRat x w) w).natAbs : ℕ) : ℝ) ≤ (binaryExponentLimit : ℕ) := by
      exact_mod_cast hlimit
    rw [Nat.cast_natAbs, Int.cast_abs] at h
    exact h.trans_eq (by norm_num [binaryExponentLimit])
  have hbounds := ln2Scaled_bounds hw
  have hclose := (abs_le.1 (abs_abs_ofRat_sub_le x hw)).2
  have hunit : (10 : ℝ) ≤ 10 ^ toWord w := le_self_pow₀ (by norm_num) (by omega)
  have hln2 : (0 : ℝ) < ln2Scaled w := by linarith
  have hparts : |(binaryPart (ofRat x w) w : ℝ)| * ln2Scaled w ≤ (2 ^ 32 - 1) * ln2Scaled w := by
    gcongr
  have hwhole : (10 : ℝ) ^ toWord w * 10 ^ 10 ≤ 10 ^ toWord w * |(x : ℝ)| := by gcongr
  linarith

end

/-! ## Results -/

/-- The width at which an exponential is computed. -/
def expWidth (x : ℚ) (precision : ℕ) : ℕ := precision + guardDigits + integerDigits x

/-- The guard digits absorb the errors of the series and of the multiples of `ln 2`. -/
theorem expWidth_error_le {x : ℚ} {p : ℕ} (hp : p ≤ 10 ^ 9) (hdigits : integerDigits x ≤ 10) {q : ℝ}
    (hq : |q| ≤ 3 * 10 ^ integerDigits x) :
    4 * ((2 * expWidth x p + 11) / 10 ^ expWidth x p) +
      2 * ((1 / 2 + |q| * (8 * expWidth x p + 2)) / 10 ^ expWidth x p) ≤ (1 / 10 / 10 ^ p : ℝ) := by
  set D := integerDigits x with hD
  set w := expWidth x p with hwidth
  have hw : (w : ℝ) ≤ 10 ^ 9 + 22 := by
    have h : w ≤ 10 ^ 9 + 22 := by
      rw [hwidth, expWidth, guardDigits]
      omega
    exact_mod_cast h
  have hscale : (1 : ℝ) ≤ 10 ^ D := one_le_pow₀ (by norm_num)
  have hsplit : (10 : ℝ) ^ w = 10 ^ p * 10 ^ 12 * 10 ^ D := by
    rw [hwidth, expWidth, guardDigits, pow_add, pow_add]
  have hmultiples : |q| * (16 * w + 4) ≤ 3 * 10 ^ D * (16 * w + 4) := by gcongr
  have hown : (8 * w + 45 : ℝ) ≤ (8 * w + 45) * 10 ^ D :=
    le_mul_of_one_le_right (by positivity) hscale
  calc _ = (8 * w + 45 + |q| * (16 * w + 4)) / 10 ^ w := by ring
    _ ≤ 10 ^ 11 * 10 ^ D / 10 ^ w := by
      gcongr
      nlinarith
    _ = 1 / 10 / 10 ^ p := by
      rw [hsplit]
      field_simp

/-- **The exponential is accurate** to a tenth of a unit of the last digit that is asked for,
relative to its magnitude. -/
theorem abs_exp_sub_le {x : ℚ} {p : ℕ} (hp : p ≤ 10 ^ 9) {a : ℚ} (h : exp x p = .ok a) :
    |(a : ℝ) - Real.exp x| ≤ 1 / 10 / 10 ^ p * Real.exp x := by
  set w := expWidth x p with hwidth
  set q := binaryPart (ofRat x w) w with hq
  obtain ⟨hw, hlimit, ha⟩ := exists_of_expScaled (z := ofRat x w) (w := w) h
  have hdigits := integerDigits_le_ten x hw hlimit
  -- so small an argument leaves the width a word
  have hword : toWord w = w := by
    refine toWord_of_lt (lt_of_le_of_lt ?_ (by decide : 10 ^ 9 + 22 < wordCount))
    rw [hwidth, expWidth, guardDigits]
    omega
  have herror := expWidth_error_le hp hdigits (abs_binaryPart_le x hw)
  rw [← hwidth, ← hq, ← hword] at herror
  have hrest := two_mul_abs_expRest_le_unit hw (ofRat x w)
  have hlow : -(1 / 2) ≤ (toRat (expRest (ofRat x w) w) w : ℝ) := by
    have h := (abs_le.1 (abs_toRat_le_half hrest)).1
    have h' : ((-(1 / 2) : ℚ) : ℝ) ≤ (toRat (expRest (ofRat x w) w) w : ℝ) := Rat.cast_le.2 h
    push_cast at h'
    exact h'
  have hsmall : (1 / 10 / 10 ^ p : ℝ) ≤ 1 / 10 :=
    div_le_self (by norm_num) (one_le_pow₀ (by norm_num))
  have hy := abs_sub_exp_le (abs_toRat_expRestScaled_sub_le hw _) (abs_toRat_expRest_sub_le x) (by
    have h : (0 : ℝ) ≤ (2 * toWord w + 11) / 10 ^ toWord w := by positivity
    rw [← hq]
    linarith) hlow
  rw [← hq] at hy
  rw [ha, exp_eq_mul_zpow x q, ← mul_assoc]
  push_cast
  rw [← sub_mul, abs_mul, abs_of_pos (zpow_pos (two_pos : (0 : ℝ) < 2) q)]
  gcongr
  exact hy.trans (by gcongr)

/-- **The exponential keeps its digits.**  Where it is not too large, it is positive at every
precision up to a thousand million, and raising the precision changes it by no more than a unit of
the last digit of the smaller one, relative to its magnitude. -/
theorem exp_refines {x : ℚ} {p p' : ℕ} (hp : 1 ≤ p) (hpp : p ≤ p') (hp' : p' ≤ 10 ^ 9) {a a' : ℚ}
    (ha : exp x p = .ok a) (ha' : exp x p' = .ok a') :
    0 < a ∧ 0 < a' ∧ |a - a'| ≤ (10 : ℚ) ^ (-(p : ℤ)) * a' := by
  have hclose := abs_le.1 (abs_exp_sub_le (hpp.trans hp') ha)
  have hclose' := abs_le.1 (abs_exp_sub_le hp' ha')
  have hpos := Real.exp_pos x
  set E := Real.exp x
  set κ : ℝ := 1 / 10 ^ p with hκ
  have hfine : (1 / 10 / 10 ^ p : ℝ) = κ / 10 := div_right_comm _ _ _
  have hfine' : (1 / 10 / 10 ^ p' : ℝ) * E ≤ κ / 10 * E := by
    rw [← hfine]
    gcongr
    norm_num
  have hκ1 : κ * E ≤ 1 / 10 * E := by
    rw [hκ]
    gcongr
    exact le_self_pow₀ (by norm_num) (by omega)
  rw [hfine] at hclose
  have hnum' : 9 / 10 * E ≤ (a' : ℝ) := by linarith
  refine ⟨?_, ?_, ?_⟩
  · exact_mod_cast (by linarith : (0 : ℝ) < a)
  · exact_mod_cast (by linarith : (0 : ℝ) < a')
  · have hκ0 : 0 < κ := by positivity
    have hmoved : |(a : ℝ) - a'| ≤ κ * a' := by
      have h : κ * (9 / 10 * E) ≤ κ * a' := by gcongr
      rw [abs_le]
      constructor <;> linarith
    rw [zpow_neg, zpow_natCast, ← one_div]
    have hcast : ((|a - a'| : ℚ) : ℝ) ≤ ((1 / 10 ^ p * a' : ℚ) : ℝ) := by
      push_cast
      exact hmoved
    exact_mod_cast hcast

/-- An argument just above minus one and a half times `ln 2`: at the smaller precision `ln 2` is put
back twice, at the larger one once. -/
theorem exp_refines_betweenReductions :
    exp (-10397207708399 / 10000000000000) 1 = .ok (28284271247453 / 80000000000000) ∧
    exp (-10397207708399 / 10000000000000) 3 = .ok (3535533905932797 / 10000000000000000) ∧
    binaryPart (ofRat (-10397207708399 / 10000000000000) 14) 14 = -2 ∧
    binaryPart (ofRat (-10397207708399 / 10000000000000) 16) 16 = -1 ∧
    (0 : ℚ) < 28284271247453 / 80000000000000 ∧
    (0 : ℚ) < 3535533905932797 / 10000000000000000 ∧
    |(28284271247453 / 80000000000000 : ℚ) - 3535533905932797 / 10000000000000000| ≤
      (10 : ℚ) ^ (-((1 : ℕ) : ℤ)) * (3535533905932797 / 10000000000000000) := by
  have hcoarse : exp (-10397207708399 / 10000000000000) 1 =
      .ok (28284271247453 / 80000000000000) := by decide +kernel
  have hfine : exp (-10397207708399 / 10000000000000) 3 =
      .ok (3535533905932797 / 10000000000000000) := by decide +kernel
  exact ⟨hcoarse, hfine, by decide +kernel, by decide +kernel,
    exp_refines (by norm_num) (by norm_num) (by norm_num) hcoarse hfine⟩

end FixedPoint
end Reckoner

import Mathlib
import Reckoner.FixedPoint.Logarithm
import Reckoner.Proofs.FixedPoint.Recurrence

/-!
# The inverse hyperbolic tangent

The series at `zn / zd` multiplies its terms by the square of the argument, cut off after `w`
decimals.  All of it is odd in `zn` (`atanhScaled_neg`), and for arguments of magnitude at most a
third:

* `term_atanhAt_halvings`: each term is at most half of the one before, so the loop runs to its
  end;
* `atanhScaled_mono`: a larger argument gives a larger sum, because each truncated term is larger
  (so the sum never has the wrong sign, and is at most `ln 2`, `abs_atanhScaled_le`);
* `abs_term_atanhAt_sub_le`: no term is off by more than one and a half units, the error of a term
  being passed on divided by nine;
* `abs_atanhScaled_sub_le`: so the sum is within `4 w + 1` units of the exact partial sums, and
  twice the sum within twice as many of the logarithm of the quotient of `1 + z` and `1 - z`
  (`abs_two_mul_atanhScaled_sub_log_le`), which is `ln 2` at a third (`abs_ln2Scaled_sub_log_le`).
-/

namespace Reckoner
namespace FixedPoint

open Finset

/-! ## The series -/

theorem atanhSeries_settles (z2 s : ℤ) : (atanhSeries z2 s).Settles where
  next_zero j := by simp [atanhSeries]
  contribution_zero j := by simp [atanhSeries]

theorem atanhSeries_isOdd (z2 s : ℤ) : (atanhSeries z2 s).IsOdd where
  next_neg j t := by
    show (-t * z2).tdiv s = -(t * z2).tdiv s
    rw [Int.neg_mul, Int.neg_tdiv]
  contribution_neg j t := Int.neg_tdiv t _

/-- The square of an argument in units of `10 ^ -w`. -/
def squaredRatio (zn zd : ℤ) (w : ℕ) : ℤ := (wordTenPow w * zn * zn).tdiv (zd * zd)

/-- The series that is summed at `zn / zd`. -/
def atanhAt (zn zd : ℤ) (w : ℕ) : Series := atanhSeries (squaredRatio zn zd w) (wordTenPow w)

/-- Its first term, the argument in units of `10 ^ -w`. -/
def atanhFirst (zn zd : ℤ) (w : ℕ) : ℤ := (wordTenPow w * zn).tdiv zd

theorem atanhScaled_eq_sum (zn zd : ℤ) (w : ℕ) :
    atanhScaled zn zd w =
      (atanhAt zn zd w).sum (halvings (atanhFirst zn zd w)) (atanhFirst zn zd w) :=
  rfl

theorem atanhScaled_neg (zn zd : ℤ) (w : ℕ) : atanhScaled (-zn) zd w = -atanhScaled zn zd w := by
  have hfirst : atanhFirst (-zn) zd w = -atanhFirst zn zd w := by
    rw [atanhFirst, mul_neg, Int.neg_tdiv, atanhFirst]
  have hsquare : squaredRatio (-zn) zd w = squaredRatio zn zd w := by
    rw [squaredRatio, mul_assoc, neg_mul_neg, ← mul_assoc, squaredRatio]
  rw [atanhScaled_eq_sum, atanhScaled_eq_sum, atanhAt, hfirst, hsquare, halvings_neg,
    (atanhSeries_isOdd _ _).sum_neg, atanhAt]

theorem atanhScaled_zero (zd : ℤ) (w : ℕ) : atanhScaled 0 zd w = 0 := by
  have h := atanhScaled_neg 0 zd w
  rw [neg_zero] at h
  omega

/-! ## The end of the loop -/

section

variable (zn zd : ℤ) (w : ℕ)

theorem squaredRatio_nonneg : 0 ≤ squaredRatio zn zd w := by
  rw [squaredRatio, mul_assoc]
  exact Int.tdiv_nonneg (mul_nonneg (Int.natCast_nonneg _) (mul_self_nonneg zn))
    (mul_self_nonneg zd)

variable {zn zd} (hzd : 0 < zd) (hz : 3 * |zn| ≤ zd)
include hzd hz

theorem nine_mul_squaredRatio_le : 9 * squaredRatio zn zd w ≤ wordTenPow w := by
  have hzd2 : 0 < zd * zd := mul_pos hzd hzd
  have hsquare : 9 * (zn * zn) ≤ zd * zd := by
    calc 9 * (zn * zn) = 3 * |zn| * (3 * |zn|) := by rw [← abs_mul_abs_self zn]; ring
      _ ≤ zd * zd := mul_self_le_mul_self (by positivity) hz
  have hfloor : squaredRatio zn zd w * (zd * zd) ≤ wordTenPow w * (zn * zn) := by
    rw [squaredRatio, mul_assoc, Int.tdiv_eq_ediv_of_nonneg
      (mul_nonneg (Int.natCast_nonneg _) (mul_self_nonneg zn))]
    exact Int.ediv_mul_le _ hzd2.ne'
  refine le_of_mul_le_mul_right ?_ hzd2
  calc 9 * squaredRatio zn zd w * (zd * zd) = 9 * (squaredRatio zn zd w * (zd * zd)) := by ring
    _ ≤ 9 * (wordTenPow w * (zn * zn)) := by gcongr
    _ = wordTenPow w * (9 * (zn * zn)) := by ring
    _ ≤ wordTenPow w * (zd * zd) := by gcongr

/-- The loop runs to a zero term. -/
theorem term_atanhAt_halvings (first : ℤ) :
    (atanhAt zn zd w).term first (halvings first) = 0 := by
  refine Series.term_halvings (fun _ t => two_mul_natAbs_tdiv_le t ?_) first
  have hnonneg := squaredRatio_nonneg zn zd w
  have hninth := nine_mul_squaredRatio_le w hzd hz
  omega

end

/-! ## Order -/

section

variable {zn zd zn' zd' : ℤ} (w : ℕ) (hzn : 0 ≤ zn) (hzd : 0 < zd) (hzd' : 0 < zd')
  (hle : zn * zd' ≤ zn' * zd)
include hzn hzd hzd' hle

theorem atanhFirst_le : atanhFirst zn zd w ≤ atanhFirst zn' zd' w := by
  refine tdiv_le_tdiv_of_mul_le (mul_nonneg (Int.natCast_nonneg _) hzn) hzd hzd' ?_
  rw [mul_assoc, mul_assoc]
  exact mul_le_mul_of_nonneg_left hle (Int.natCast_nonneg _)

theorem squaredRatio_le : squaredRatio zn zd w ≤ squaredRatio zn' zd' w := by
  refine tdiv_le_tdiv_of_mul_le ?_ (mul_pos hzd hzd) (mul_pos hzd' hzd') ?_
  · rw [mul_assoc]
    exact mul_nonneg (Int.natCast_nonneg _) (mul_self_nonneg zn)
  · calc wordTenPow w * zn * zn * (zd' * zd') = wordTenPow w * (zn * zd' * (zn * zd')) := by ring
      _ ≤ wordTenPow w * (zn' * zd * (zn' * zd)) :=
        mul_le_mul_of_nonneg_left (mul_self_le_mul_self (mul_nonneg hzn hzd'.le) hle)
          (Int.natCast_nonneg _)
      _ = wordTenPow w * zn' * zn' * (zd * zd) := by ring

theorem atanhAt_isBelow : (atanhAt zn zd w).IsBelow (atanhAt zn' zd' w) where
  next_nonneg _ t ht :=
    Int.tdiv_nonneg (mul_nonneg ht (squaredRatio_nonneg zn zd w)) (Int.natCast_nonneg _)
  next_le _ t t' ht hle' := by
    have hunit : (0 : ℤ) < wordTenPow w := by exact_mod_cast wordTenPow_pos w
    refine tdiv_le_tdiv_of_mul_le (mul_nonneg ht (squaredRatio_nonneg zn zd w)) hunit hunit ?_
    refine mul_le_mul_of_nonneg_right ?_ hunit.le
    exact mul_le_mul hle' (squaredRatio_le w hzn hzd hzd' hle) (squaredRatio_nonneg zn zd w)
      (ht.trans hle')
  contribution_le j t t' ht hle' := by
    have hodd : (0 : ℤ) < 2 * j + 1 := by omega
    exact tdiv_le_tdiv_of_mul_le ht hodd hodd (mul_le_mul_of_nonneg_right hle' hodd.le)

/-- The sum grows with the argument. -/
theorem atanhScaled_mono (hthird : 3 * zn' ≤ zd') :
    atanhScaled zn zd w ≤ atanhScaled zn' zd' w := by
  have hzn' : 0 ≤ zn' := nonneg_of_mul_nonneg_left ((mul_nonneg hzn hzd'.le).trans hle) hzd
  have hthird' : 3 * |zn'| ≤ zd' := by rwa [abs_of_nonneg hzn']
  have hsmall : 3 * |zn| ≤ zd := by
    rw [abs_of_nonneg hzn]
    refine le_of_mul_le_mul_right ?_ hzd'
    calc 3 * zn * zd' = 3 * (zn * zd') := by ring
      _ ≤ 3 * (zn' * zd) := by gcongr
      _ = 3 * zn' * zd := by ring
      _ ≤ zd' * zd := mul_le_mul_of_nonneg_right hthird hzd.le
      _ = zd * zd' := mul_comm _ _
  have hfirst : 0 ≤ atanhFirst zn zd w :=
    Int.tdiv_nonneg (mul_nonneg (Int.natCast_nonneg _) hzn) hzd.le
  exact (atanhAt_isBelow w hzn hzd hzd' hle).sum_le hfirst (atanhFirst_le w hzn hzd hzd' hle)
    (atanhSeries_settles _ _) (atanhSeries_settles _ _) (term_atanhAt_halvings w hzd hsmall _)
    (term_atanhAt_halvings w hzd' hthird' _)

end

section

variable {zn zd : ℤ} (w : ℕ) (hzd : 0 < zd) (hz : 3 * |zn| ≤ zd)
include hzd hz

/-- The sum has the sign of the argument. -/
theorem atanhScaled_nonneg (hzn : 0 ≤ zn) : 0 ≤ atanhScaled zn zd w := by
  rw [abs_of_nonneg hzn] at hz
  rw [← atanhScaled_zero zd w]
  exact atanhScaled_mono w le_rfl hzd hzd (mul_le_mul_of_nonneg_right hzn hzd.le) hz

/-- The largest argument is a third. -/
theorem abs_atanhScaled_le : |atanhScaled zn zd w| ≤ atanhScaled 1 3 w := by
  have hbound {n : ℤ} (hn : 0 ≤ n) (hn3 : 3 * n ≤ zd) :
      |atanhScaled n zd w| ≤ atanhScaled 1 3 w := by
    rw [abs_of_nonneg (atanhScaled_nonneg w hzd (by rwa [abs_of_nonneg hn]) hn)]
    exact atanhScaled_mono w hn hzd (by norm_num) (by omega) (by norm_num)
  rcases le_total 0 zn with hzn | hzn
  · exact hbound hzn (by rwa [abs_of_nonneg hzn] at hz)
  · rw [← abs_neg, ← atanhScaled_neg]
    exact hbound (neg_nonneg.2 hzn) (by rwa [abs_of_nonpos hzn] at hz)

end

/-! ## Accuracy -/

/-- The `j`-th term of the series of the inverse hyperbolic tangent. -/
def atanhTerm (z : ℚ) (j : ℕ) : ℚ := z ^ (2 * j + 1) / (2 * j + 1)

section

variable (zn : ℤ) {zd : ℤ} (w : ℕ) (hzd : 0 < zd)

theorem atanhFirst_div_eq (zn zd : ℤ) (w : ℕ) :
    ((wordTenPow w * zn : ℤ) : ℚ) / zd = 10 ^ toWord w * (zn / zd) := by
  rw [wordTenPow_eq]
  push_cast
  ring

theorem squaredRatio_div_eq (zn zd : ℤ) (w : ℕ) :
    ((wordTenPow w * zn * zn : ℤ) : ℚ) / (zd * zd : ℤ) = 10 ^ toWord w * (zn / zd) ^ 2 := by
  rw [wordTenPow_eq]
  push_cast
  ring

/-- The first term is no larger than the exact one. -/
theorem abs_atanhFirst_le (zn zd : ℤ) (w : ℕ) :
    |(atanhFirst zn zd w : ℚ)| ≤ 10 ^ toWord w * |((zn : ℚ) / zd) ^ (2 * 0 + 1)| := by
  have hunit : (0 : ℚ) < 10 ^ toWord w := by positivity
  have h := abs_tdiv_le (wordTenPow w * zn) zd
  rw [← abs_div, atanhFirst_div_eq, abs_mul, abs_of_pos hunit] at h
  rwa [Nat.mul_zero, Nat.zero_add, pow_one]

include hzd

/-- The integer series multiplies by the square of the argument, which is cut off. -/
theorem atanhAt_follows : (atanhAt zn zd w).Follows w (fun j => ((zn : ℚ) / zd) ^ (2 * j + 1))
    (squaredRatio zn zd w) ((zn / zd) ^ 2) 1 (fun _ => 1) where
  pos _ := Nat.one_pos
  next_eq j t := by
    rw [Nat.cast_one, mul_one]
    rfl
  exact_succ j := by
    rw [Nat.cast_one, div_one]
    ring
  abs_le := abs_toRat_tdiv_le (squaredRatio_div_eq zn zd w)
  abs_sub_le := abs_toRat_tdiv_sub_le (squaredRatio_div_eq zn zd w) (mul_pos hzd hzd)

theorem abs_atanhFirst_sub_lt : |(atanhFirst zn zd w : ℚ) - 10 ^ toWord w * (zn / zd)| < 1 := by
  have h := abs_tdiv_sub_lt (wordTenPow w * zn) hzd
  rwa [atanhFirst_div_eq] at h

variable {zn} (hz : 3 * |zn| ≤ zd)
include hz

theorem abs_ratio_le : |(zn : ℚ) / zd| ≤ 1 / 3 := by
  have hzd' : (0 : ℚ) < zd := by exact_mod_cast hzd
  have hz' : 3 * |(zn : ℚ)| ≤ zd := by exact_mod_cast hz
  rw [abs_div, abs_of_pos hzd', div_le_iff₀ hzd']
  linarith only [hz']

/-- The error of a term is passed on divided by nine, with less than a third of a unit from the
square and less than a unit from the division. -/
theorem abs_term_atanhAt_sub_le (j : ℕ) :
    |((atanhAt zn zd w).term (atanhFirst zn zd w) j : ℚ) -
      10 ^ toWord w * (zn / zd) ^ (2 * j + 1)| ≤ 3 / 2 := by
  have hratio := abs_ratio_le hzd hz
  induction j with
  | zero =>
    have h := abs_atanhFirst_sub_lt zn w hzd
    rw [Series.term, Nat.mul_zero, Nat.zero_add, pow_one]
    linarith only [h]
  | succ j ih =>
    have hstep := (atanhAt_follows zn w hzd).abs_term_succ_sub_le (abs_atanhFirst_le zn zd w) j
    have hfactor : |((zn : ℚ) / zd) ^ 2| ≤ 1 / 9 := by
      rw [abs_pow]
      calc |(zn : ℚ) / zd| ^ 2 ≤ (1 / 3) ^ 2 := by gcongr
        _ = 1 / 9 := by norm_num
    have hpassed : |((atanhAt zn zd w).term (atanhFirst zn zd w) j : ℚ) -
        10 ^ toWord w * (zn / zd) ^ (2 * j + 1)| * |((zn : ℚ) / zd) ^ 2| ≤ 3 / 2 * (1 / 9) := by
      gcongr
    have hshare : |((zn : ℚ) / zd) ^ (2 * j + 1)| ≤ 1 / 3 := by
      rw [abs_pow]
      exact (pow_le_of_le_one (abs_nonneg _) (by linarith only [hratio]) (by omega)).trans hratio
    rw [Nat.cast_one, div_one, one_mul] at hstep
    linarith only [hstep, hpassed, hshare]

/-- A contribution is off by at most two units. -/
theorem abs_contribution_atanhAt_sub_le (j : ℕ) :
    |((atanhAt zn zd w).contribution j ((atanhAt zn zd w).term (atanhFirst zn zd w) j) : ℚ) -
      10 ^ toWord w * atanhTerm (zn / zd) j| ≤ 2 := by
  set t := (atanhAt zn zd w).term (atanhFirst zn zd w) j with ht
  have hodd : (1 : ℚ) ≤ 2 * j + 1 := by exact_mod_cast Nat.le_add_left 1 (2 * j)
  have hcut : |((atanhAt zn zd w).contribution j t : ℚ) - t / (2 * j + 1)| ≤ 1 := by
    have h := (abs_tdiv_sub_lt t (b := 2 * j + 1) (by omega)).le
    push_cast at h
    exact h
  have hterm : |(t : ℚ) - 10 ^ toWord w * (zn / zd) ^ (2 * j + 1)| ≤ 2 * j + 1 := by
    cases j with
    | zero =>
      have h := (abs_atanhFirst_sub_lt zn w hzd).le
      simpa [ht, Series.term] using h
    | succ j =>
      have h := abs_term_atanhAt_sub_le w hzd hz (j + 1)
      have hj : (0 : ℚ) ≤ j := Nat.cast_nonneg j
      push_cast
      linarith only [h, hj]
  have hshare : |(t : ℚ) / (2 * j + 1) - 10 ^ toWord w * atanhTerm (zn / zd) j| ≤ 1 := by
    have hpos : (0 : ℚ) < 2 * j + 1 := by linarith only [hodd]
    rwa [atanhTerm, mul_div_assoc', ← sub_div, abs_div, abs_of_pos hpos, div_le_one hpos]
  exact (abs_sub_le _ _ _).trans ((add_le_add hcut hshare).trans_eq one_add_one_eq_two)

/-- Past twice the width the exact terms are below a third of a unit. -/
theorem tenPow_mul_abs_ratio_pow_le (i : ℕ) :
    10 ^ toWord w * |(zn : ℚ) / zd| ^ (2 * (2 * toWord w + i) + 1) ≤ 1 / 3 * (1 / 9) ^ i := by
  calc 10 ^ toWord w * |(zn : ℚ) / zd| ^ (2 * (2 * toWord w + i) + 1)
      ≤ 10 ^ toWord w * (1 / 3) ^ (2 * (2 * toWord w + i) + 1) := by
        gcongr
        exact abs_ratio_le hzd hz
    _ = (10 / 81) ^ toWord w * (1 / 3 * (1 / 9) ^ i) := by
        rw [show 2 * (2 * toWord w + i) + 1 = 4 * toWord w + 2 * i + 1 by ring, pow_succ,
          pow_add, pow_mul, pow_mul, show (10 : ℚ) / 81 = 10 * (1 / 3) ^ 4 by norm_num, mul_pow,
          show (1 / 3 : ℚ) ^ 2 = 1 / 9 by norm_num]
        ring
    _ ≤ 1 / 3 * (1 / 9) ^ i :=
        mul_le_of_le_one_left (by positivity) (pow_le_one₀ (by norm_num) (by norm_num))

theorem tenPow_mul_abs_atanhTerm_le (i : ℕ) :
    10 ^ toWord w * |atanhTerm (zn / zd) (2 * toWord w + i)| ≤ 1 / 3 * (1 / 9) ^ i := by
  have hodd : (1 : ℚ) ≤ 2 * (2 * toWord w + i : ℕ) + 1 := by
    exact_mod_cast Nat.le_add_left 1 (2 * (2 * toWord w + i))
  rw [atanhTerm, abs_div, abs_pow,
    abs_of_pos (by linarith only [hodd] : (0 : ℚ) < 2 * (2 * toWord w + i : ℕ) + 1)]
  refine le_trans ?_ (tenPow_mul_abs_ratio_pow_le w hzd hz i)
  gcongr
  exact div_le_self (by positivity) hodd

theorem term_atanhAt_eq_zero : (atanhAt zn zd w).term (atanhFirst zn zd w) (2 * toWord w) = 0 := by
  refine (atanhAt_follows zn w hzd).term_eq_zero (abs_atanhFirst_le zn zd w) ?_
  rw [abs_pow]
  refine (tenPow_mul_abs_ratio_pow_le w hzd hz 0).trans_lt ?_
  norm_num

/-- **The kernel of the logarithm is accurate.**  The integer sum differs from the exact partial
sums by at most two units for each term before the end, and one for the terms after it. -/
theorem abs_atanhScaled_sub_le {N : ℕ} (hN : 2 * toWord w ≤ N) :
    |(atanhScaled zn zd w : ℚ) - 10 ^ toWord w * ∑ j ∈ range N, atanhTerm (zn / zd) j| ≤
      4 * toWord w + 1 := by
  refine ((atanhSeries_settles _ _).abs_sum_sub_le (by positivity)
    (term_atanhAt_halvings w hzd hz _) (term_atanhAt_eq_zero w hzd hz)
    (abs_contribution_atanhAt_sub_le w hzd hz) (tenPow_mul_abs_atanhTerm_le w hzd hz)
    (by norm_num) (by norm_num) (by norm_num) hN).trans_eq ?_
  push_cast
  ring

end

/-! ## The logarithm -/

theorem hasSum_atanhTerm {z : ℚ} (hz : |z| < 1) :
    HasSum (fun j => ((2 * atanhTerm z j : ℚ) : ℝ)) (Real.log (1 + z) - Real.log (1 - z)) := by
  convert Real.hasSum_log_sub_log_of_abs_lt_one (x := z) (by exact_mod_cast hz) using 2 with j
  rw [atanhTerm]
  push_cast
  ring

/-- Twice the sum is the logarithm of the quotient of `1 + z` and `1 - z`. -/
theorem abs_two_mul_atanhScaled_sub_log_le {zn zd : ℤ} (w : ℕ) (hzd : 0 < zd)
    (hz : 3 * |zn| ≤ zd) :
    |(atanhScaled zn zd w * 2 : ℝ) -
      10 ^ toWord w * (Real.log (1 + (zn / zd : ℚ)) - Real.log (1 - (zn / zd : ℚ)))| ≤
        8 * toWord w + 2 := by
  have hone : |(zn : ℚ) / zd| < 1 := (abs_ratio_le hzd hz).trans_lt (by norm_num)
  have hpartial (N : ℕ) (hN : 2 * toWord w ≤ N) :
      |(atanhScaled zn zd w * 2 : ℚ) - 10 ^ toWord w * ∑ j ∈ range N, 2 * atanhTerm (zn / zd) j| ≤
        8 * toWord w + 2 := by
    have h := abs_atanhScaled_sub_le w hzd hz hN
    rw [← mul_sum, show (atanhScaled zn zd w : ℚ) * 2 -
        10 ^ toWord w * (2 * ∑ j ∈ range N, atanhTerm (zn / zd) j) =
      ((atanhScaled zn zd w : ℚ) - 10 ^ toWord w * ∑ j ∈ range N, atanhTerm (zn / zd) j) * 2
        by ring, abs_mul, abs_two]
    linarith only [h]
  have h := abs_sub_mul_le_of_hasSum (hasSum_atanhTerm hone) hpartial
  push_cast at h ⊢
  exact h

theorem abs_ln2Scaled_sub_log_le (w : ℕ) :
    |(ln2Scaled w : ℝ) - 10 ^ toWord w * Real.log 2| ≤ 8 * toWord w + 2 := by
  have hlog : Real.log (1 + ((1 : ℤ) / (3 : ℤ) : ℚ)) - Real.log (1 - ((1 : ℤ) / (3 : ℤ) : ℚ)) =
      Real.log 2 := by
    rw [← Real.log_div (by norm_num) (by norm_num)]
    norm_num
  have hthird : 3 * |(1 : ℤ)| ≤ 3 := by norm_num
  have h := abs_two_mul_atanhScaled_sub_log_le w three_pos hthird
  rw [hlog] at h
  rw [ln2Scaled]
  push_cast
  exact h

end FixedPoint
end Reckoner

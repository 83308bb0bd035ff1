import Mathlib
import Reckoner.FixedPoint.Pi
import Reckoner.Proofs.FixedPoint.Series
import Reckoner.Proofs.FixedPoint.Units

/-!
# Machin's formula

The series of an inverse tangent has the terms `⌊c / q ^ (2j+1)⌋`, each divided once more by
`2j+1`.  So every contribution is off by less than a unit, and after as many terms as the scale
has digits they are all zero (`abs_arctanInverse_sub_le`).  Machin's formula multiplies that by
twenty, and the ten spare digits swallow it: `piScaled d` is within little more than two units
of the formula (`abs_piScaled_sub_machin_le`), and of π (`abs_piScaled_sub_pi_le`), as long as `d`
and the spare digits fit a word of 32 bits.  The formula does not depend on the width, so the
digits of π at two widths agree, but for their last places (`piScaled_follows_machin`).
-/

namespace Reckoner
namespace FixedPoint

open Finset

/-! ## Inverse tangents -/

theorem arctanSeries_settles (q : ℤ) : (arctanSeries q).Settles where
  next_zero _ := Int.zero_tdiv _
  contribution_zero j := by simp [arctanSeries]

/-- The loop runs to a zero term, for every argument above one and every scale. -/
theorem term_arctanSeries_halvings {q : ℤ} (hq : 1 < q) (scale : ℤ) :
    (arctanSeries q).term (scale.tdiv q) (halvings scale) = 0 := by
  have hfour : 2 * (1 : ℤ).natAbs ≤ (q * q).natAbs := by
    have hsquare : 2 * 2 ≤ q * q := mul_le_mul hq hq (by norm_num) (by omega)
    omega
  have hhalves (j : ℕ) (t : ℤ) : 2 * ((arctanSeries q).next j t).natAbs ≤ t.natAbs := by
    have h := two_mul_natAbs_tdiv_le t hfour
    rwa [mul_one] at h
  have hfirst : (scale.tdiv q).natAbs < 2 ^ halvings scale := by
    rw [Int.natAbs_tdiv]
    exact (Nat.div_le_self _ _).trans_lt (natAbs_lt_halvings scale)
  have hzero : (arctanSeries q).term (scale.tdiv q) (0 + halvings scale) = 0 :=
    Series.term_eq_zero_of_natAbs_lt (fun j t _ => hhalves j t) hfirst
  rwa [Nat.zero_add] at hzero

theorem term_arctanSeries (q c j : ℕ) :
    (arctanSeries q).term ((c : ℤ).tdiv q) j = (c / q ^ (2 * j + 1) : ℕ) := by
  induction j with
  | zero =>
    rw [Series.term, Nat.mul_zero, Nat.zero_add, pow_one]
    exact (Int.ofNat_tdiv c q).symm
  | succ j ih =>
    have hnext : (arctanSeries q).next j (c / q ^ (2 * j + 1) : ℕ) =
        ((c / q ^ (2 * j + 1) : ℕ) : ℤ).tdiv (q * q : ℕ) := by
      push_cast
      rfl
    rw [Series.term, ih, hnext, ← Int.ofNat_tdiv, Nat.div_div_eq_div_mul, ← pow_two, ← pow_add,
      show 2 * j + 1 + 2 = 2 * (j + 1) + 1 by omega]

theorem contribution_arctanSeries (q : ℤ) (j : ℕ) (t : ℤ) :
    (arctanSeries q).contribution j t = (-1) ^ j * t.tdiv (2 * j + 1) := by
  show (if j % 2 = 0 then t.tdiv (2 * j + 1) else -t.tdiv (2 * j + 1)) = _
  split
  · rename_i heven
    rw [(Nat.even_iff.2 heven).neg_one_pow, one_mul]
  · rename_i hodd
    rw [(Nat.odd_iff.2 (Nat.mod_two_ne_zero.1 hodd)).neg_one_pow, neg_one_mul]

/-- The `j`-th term of the series of `arctan (1/q)`. -/
def arctanTerm (q j : ℕ) : ℚ := (-1) ^ j / ((2 * j + 1) * q ^ (2 * j + 1))

/-- The sum of the first `N` terms. -/
def arctanSum (q N : ℕ) : ℚ := ∑ k ∈ range N, arctanTerm q k

section

variable (q c : ℕ)

/-- A contribution is off by less than a unit. -/
theorem abs_contribution_sub_le (hq : 0 < q) (j : ℕ) :
    |((arctanSeries q).contribution j ((arctanSeries q).term ((c : ℤ).tdiv q) j) : ℚ) -
      c * arctanTerm q j| ≤ 1 := by
  have hfloor : ((arctanSeries q).term ((c : ℤ).tdiv q) j).tdiv (2 * j + 1) =
      (c : ℤ).tdiv (q ^ (2 * j + 1) * (2 * j + 1) : ℕ) := by
    rw [term_arctanSeries, show (2 * (j : ℤ) + 1) = (2 * j + 1 : ℕ) by push_cast; rfl,
      ← Int.ofNat_tdiv, ← Int.ofNat_tdiv, Nat.div_div_eq_div_mul]
  have hdivisor : (0 : ℤ) < (q ^ (2 * j + 1) * (2 * j + 1) : ℕ) := by
    exact_mod_cast Nat.mul_pos (Nat.pow_pos hq) (Nat.succ_pos _)
  have hlt := (abs_tdiv_sub_lt c hdivisor).le
  rw [contribution_arctanSeries, hfloor, arctanTerm]
  push_cast at hlt ⊢
  rw [mul_div_assoc', mul_comm _ ((-1 : ℚ) ^ j), mul_div_assoc, ← mul_sub, abs_mul, abs_pow,
    abs_neg, abs_one, one_pow, one_mul, mul_comm (2 * (j : ℚ) + 1)]
  exact hlt

end

section

variable {q : ℕ} (hq : 5 ≤ q)
include hq

/-- The powers of `q` outgrow those of ten. -/
theorem tenPow_mul_le_pow (m i : ℕ) : tenPow m * (5 * 25 ^ i) ≤ q ^ (2 * (m + i) + 1) := by
  calc tenPow m * (5 * 25 ^ i) ≤ 25 ^ m * (5 * 25 ^ i) := by
        rw [tenPow_eq]
        gcongr
        norm_num
    _ = 5 ^ (2 * (m + i) + 1) := by
        rw [show 25 = 5 ^ 2 by norm_num, ← pow_mul, ← pow_mul, ← pow_succ', ← pow_add]
        congr 1
        ring
    _ ≤ q ^ (2 * (m + i) + 1) := Nat.pow_le_pow_left hq _

theorem term_arctanSeries_eq_zero (m : ℕ) :
    (arctanSeries q).term ((tenPow m : ℤ).tdiv q) m = 0 := by
  have hlarge : tenPow m < q ^ (2 * m + 1) :=
    (lt_mul_of_one_lt_right (tenPow_pos m) (by norm_num)).trans_le (tenPow_mul_le_pow hq m 0)
  rw [term_arctanSeries, Nat.div_eq_of_lt hlarge, Nat.cast_zero]

theorem tenPow_mul_abs_arctanTerm_le (m i : ℕ) :
    10 ^ m * |arctanTerm q (m + i)| ≤ 1 / 5 * (1 / 25) ^ i := by
  have hpow : (10 : ℚ) ^ m * (5 * 25 ^ i) ≤ q ^ (2 * (m + i) + 1) := by
    exact_mod_cast tenPow_mul_le_pow hq m i
  have hq' : (0 : ℚ) < q := by exact_mod_cast (by omega : 0 < q)
  have hodd : (1 : ℚ) ≤ 2 * (m + i : ℕ) + 1 := by
    exact_mod_cast Nat.le_add_left 1 (2 * (m + i))
  have hterm : |arctanTerm q (m + i)| ≤ 1 / q ^ (2 * (m + i) + 1) := by
    rw [arctanTerm, abs_div, abs_pow, abs_neg, abs_one, one_pow, abs_of_pos (by positivity)]
    gcongr
    exact le_mul_of_one_le_left (by positivity) hodd
  calc 10 ^ m * |arctanTerm q (m + i)| ≤ 10 ^ m * (1 / q ^ (2 * (m + i) + 1)) := by gcongr
    _ ≤ 10 ^ m * (1 / (10 ^ m * (5 * 25 ^ i))) := by gcongr
    _ = 1 / 5 * (1 / 25) ^ i := by
      rw [one_div_pow]
      field_simp

/-- The integer sum of an inverse tangent differs from the exact partial sums by at most one
unit for each digit of the scale, and one for the terms after them. -/
theorem abs_arctanInverse_sub_le (m : ℕ) {N : ℕ} (hN : m ≤ N) :
    |(arctanInverse q (tenPow m) : ℚ) - 10 ^ m * arctanSum q N| ≤ m + 1 := by
  have hhead (j : ℕ) : |((arctanSeries q).contribution j
      ((arctanSeries q).term ((tenPow m : ℤ).tdiv q) j) : ℚ) - 10 ^ m * arctanTerm q j| ≤ 1 := by
    have h := abs_contribution_sub_le q (tenPow m) (by omega) j
    rw [tenPow_eq] at h ⊢
    exact_mod_cast h
  refine ((arctanSeries_settles q).abs_sum_sub_le (by positivity)
    (term_arctanSeries_halvings (by exact_mod_cast (by omega : 1 < q)) _)
    (term_arctanSeries_eq_zero hq m) hhead (tenPow_mul_abs_arctanTerm_le hq m) (by norm_num)
    (by norm_num) (by norm_num) hN).trans_eq ?_
  rw [mul_one]

end

theorem hasSum_arctanTerm {q : ℕ} (hq : 1 < q) :
    HasSum (fun j => (arctanTerm q j : ℝ)) (Real.arctan (q : ℝ)⁻¹) := by
  have hq' : (1 : ℝ) < q := by exact_mod_cast hq
  have hnorm : ‖(q : ℝ)⁻¹‖ < 1 := by
    rw [norm_inv, Real.norm_natCast]
    exact inv_lt_one_of_one_lt₀ hq'
  convert Real.hasSum_arctan hnorm using 2 with j
  rw [arctanTerm]
  push_cast
  rw [inv_pow, div_mul_eq_div_div_swap, div_eq_mul_inv _ ((q : ℝ) ^ (2 * j + 1))]

/-! ## The number π -/

/-- The terms of Machin's formula for π. -/
def machinTerm (j : ℕ) : ℚ := 16 * arctanTerm 5 j - 4 * arctanTerm 239 j

theorem hasSum_machinTerm : HasSum (fun j => (machinTerm j : ℝ)) Real.pi := by
  have hfive := (hasSum_arctanTerm (q := 5) (by norm_num)).mul_left 16
  have htwo := (hasSum_arctanTerm (q := 239) (by norm_num)).mul_left 4
  have hmachin : Real.pi =
      16 * Real.arctan ((5 : ℕ) : ℝ)⁻¹ - 4 * Real.arctan ((239 : ℕ) : ℝ)⁻¹ := by
    have h := Real.four_mul_arctan_inv_5_sub_arctan_inv_239
    push_cast
    linarith
  have hterm : (fun j => (machinTerm j : ℝ)) =
      fun j => 16 * (arctanTerm 5 j : ℝ) - 4 * (arctanTerm 239 j : ℝ) := by
    funext j
    rw [machinTerm]
    push_cast
    rfl
  rw [hmachin, hterm]
  exact hfive.sub htwo

theorem sum_machinTerm (N : ℕ) :
    ∑ j ∈ range N, machinTerm j = 16 * arctanSum 5 N - 4 * arctanSum 239 N := by
  rw [arctanSum, arctanSum, mul_sum, mul_sum, ← sum_sub_distrib]
  rfl

/-- Machin's formula is evaluated with enough spare digits: a unit is lost when they are
dropped, and what the two series lose is that much smaller. -/
theorem abs_piScaled_sub_machin_le {d : ℕ} (hword : d + 10 < wordCount) {N : ℕ}
    (hN : d + 10 ≤ N) :
    |(piScaled d : ℚ) - 10 ^ d * ∑ j ∈ range N, machinTerm j| ≤ 1 + 20 * (d + 11) / 10 ^ 10 := by
  set a := arctanInverse 5 (tenPow (d + 10)) with ha
  set b := arctanInverse 239 (tenPow (d + 10)) with hb
  have hfive : |(a : ℚ) - 10 ^ (d + 10) * arctanSum 5 N| ≤ d + 11 := by
    have h := abs_arctanInverse_sub_le (q := 5) le_rfl (d + 10) hN
    push_cast at h
    linarith
  have htwo : |(b : ℚ) - 10 ^ (d + 10) * arctanSum 239 N| ≤ d + 11 := by
    have h := abs_arctanInverse_sub_le (q := 239) (by norm_num) (d + 10) hN
    push_cast at h
    linarith
  have hspare : |((16 * a - 4 * b : ℤ) : ℚ) - 10 ^ (d + 10) * ∑ j ∈ range N, machinTerm j| ≤
      20 * (d + 11) := by
    rw [sum_machinTerm]
    push_cast
    rw [abs_le] at hfive htwo ⊢
    constructor <;> linarith [hfive.1, hfive.2, htwo.1, htwo.2]
  have hpi : piScaled d = (16 * a - 4 * b).tdiv (10 ^ 10) := by
    rw [piScaled, piSpareDigits, wordTenPow_of_lt hword]
    rfl
  have hdropped : |(piScaled d : ℚ) - ((16 * a - 4 * b : ℤ) : ℚ) / 10 ^ 10| ≤ 1 := by
    have h := (abs_tdiv_sub_lt (16 * a - 4 * b) (b := 10 ^ 10) (by norm_num)).le
    rw [hpi]
    exact_mod_cast h
  calc |(piScaled d : ℚ) - 10 ^ d * ∑ j ∈ range N, machinTerm j|
      ≤ |(piScaled d : ℚ) - ((16 * a - 4 * b : ℤ) : ℚ) / 10 ^ 10| +
          |((16 * a - 4 * b : ℤ) : ℚ) / 10 ^ 10 - 10 ^ d * ∑ j ∈ range N, machinTerm j| :=
        abs_sub_le _ _ _
    _ ≤ 1 + 20 * (d + 11) / 10 ^ 10 := by
        refine add_le_add hdropped ?_
        rw [div_sub' (by norm_num), abs_div, abs_of_pos (by norm_num : (0 : ℚ) < 10 ^ 10),
          ← mul_assoc, ← pow_add, Nat.add_comm 10 d]
        gcongr

theorem abs_piScaled_sub_pi_le {d : ℕ} (hword : d + 10 < wordCount) :
    |(piScaled d : ℝ) - 10 ^ d * Real.pi| ≤ 1 + 20 * (d + 11) / 10 ^ 10 := by
  have h := abs_sub_mul_le_of_hasSum hasSum_machinTerm fun N hN =>
    abs_piScaled_sub_machin_le hword hN
  push_cast at h
  exact h

theorem piScaled_bounds {w : ℕ} (hw : 1 ≤ w) (hword : w + 10 < wordCount) :
    3 * (10 : ℝ) ^ w ≤ piScaled w ∧ (piScaled w : ℝ) ≤ 4 * 10 ^ w := by
  have hunit : (10 : ℝ) ≤ 10 ^ w := le_self_pow₀ (by norm_num) (by omega)
  have hwidth : (w : ℝ) ≤ 10 ^ w := by exact_mod_cast (Nat.lt_pow_self (by norm_num)).le
  have h := abs_le.1 (abs_piScaled_sub_pi_le hword)
  have hlow := Real.pi_gt_d2
  have hhigh := Real.pi_lt_d2
  constructor <;> nlinarith

theorem piScaled_pos {w : ℕ} (hw : 1 ≤ w) (hword : w + 10 < wordCount) : 0 < piScaled w := by
  have h := (piScaled_bounds hw hword).1
  have hunit : (0 : ℝ) < 10 ^ w := by positivity
  exact_mod_cast (by linarith : (0 : ℝ) < piScaled w)

/-! ## More digits -/

theorem abs_piScaled_sub_machin_le_two {d N : ℕ} (hd : d ≤ 10 ^ 8) (hN : d + 10 ≤ N) :
    |(piScaled d : ℚ) - 10 ^ d * (16 * arctanSum 5 N - 4 * arctanSum 239 N)| ≤ 2 := by
  have hd' : (d : ℚ) ≤ 10 ^ 8 := by exact_mod_cast hd
  have hword : d + 10 < wordCount :=
    (Nat.add_le_add_right hd 10).trans_lt (by decide : 10 ^ 8 + 10 < wordCount)
  have h := abs_piScaled_sub_machin_le hword hN
  rw [sum_machinTerm] at h
  linarith

/-- **Machin's formula is evaluated with enough spare digits.**  Up to a hundred million digits, π
is within two units of the formula, however many of its terms are taken.  So π at two widths is the
same, but for four units of the last place of each. -/
theorem piScaled_follows_machin :
    (∀ d N, d ≤ 10 ^ 8 → 2 * (d + 10) ≤ N →
      |(piScaled d : ℚ) - 10 ^ d * (16 * arctanSum 5 N - 4 * arctanSum 239 N)| ≤ 2) ∧
    ∀ d j, d + j ≤ 10 ^ 8 → |piScaled (d + j) - 10 ^ j * piScaled d| ≤ 4 * 10 ^ j + 4 := by
  refine ⟨?_, ?_⟩
  · intro d N hd hN
    exact abs_piScaled_sub_machin_le_two hd (by omega)
  · intro d j hwidth
    -- both are compared with the same partial sums
    set machin := 16 * arctanSum 5 (d + j + 10) - 4 * arctanSum 239 (d + j + 10) with hmachin
    have hlong : |(piScaled (d + j) : ℚ) - 10 ^ (d + j) * machin| ≤ 2 :=
      abs_piScaled_sub_machin_le_two hwidth le_rfl
    have hshort : |(piScaled d : ℚ) - 10 ^ d * machin| ≤ 2 :=
      abs_piScaled_sub_machin_le_two (by omega) (by omega)
    have hshifted : |10 ^ j * (piScaled d : ℚ) - 10 ^ (d + j) * machin| ≤ 10 ^ j * 2 := by
      have hunit : (0 : ℚ) < 10 ^ j := by positivity
      rw [pow_add, mul_comm (10 ^ d) (10 ^ j), mul_assoc, ← mul_sub, abs_mul, abs_of_pos hunit]
      gcongr
    have hunit : (0 : ℚ) ≤ 10 ^ j := by positivity
    have hdistance : |(piScaled (d + j) : ℚ) - 10 ^ j * piScaled d| ≤ 4 * 10 ^ j + 4 := by
      calc |(piScaled (d + j) : ℚ) - 10 ^ j * piScaled d|
          ≤ |(piScaled (d + j) : ℚ) - 10 ^ (d + j) * machin| +
              |10 ^ (d + j) * machin - 10 ^ j * piScaled d| := abs_sub_le _ _ _
        _ ≤ 4 * 10 ^ j + 4 := by
            rw [abs_sub_comm _ (10 ^ j * (piScaled d : ℚ))]
            linarith
    exact_mod_cast hdistance

/-- Thirty decimals of π beside the first five. -/
theorem piScaled_follows_machin_thirty :
    5 ≤ 10 ^ 8 ∧ 2 * (5 + 10) ≤ 30 ∧ 5 + 25 ≤ 10 ^ 8 ∧ piScaled 5 = 314159 ∧
    piScaled (5 + 25) = 3141592653589793238462643383279 ∧
    |((314159 : ℤ) : ℚ) - 10 ^ 5 * (16 * arctanSum 5 30 - 4 * arctanSum 239 30)| ≤ 2 ∧
    |(3141592653589793238462643383279 : ℤ) - 10 ^ 25 * 314159| ≤ 4 * 10 ^ 25 + 4 := by
  have hfive : piScaled 5 = 314159 := by decide +kernel
  have hthirty : piScaled (5 + 25) = 3141592653589793238462643383279 := by decide +kernel
  have hformula := piScaled_follows_machin.1 5 30 (by norm_num) (by norm_num)
  have hagree := piScaled_follows_machin.2 5 25 (by norm_num)
  rw [hfive] at hformula hagree
  rw [hthirty] at hagree
  exact ⟨by norm_num, by norm_num, by norm_num, hfive, hthirty, hformula, hagree⟩

end FixedPoint
end Reckoner

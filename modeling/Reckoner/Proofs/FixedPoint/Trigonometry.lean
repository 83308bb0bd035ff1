import Mathlib
import Reckoner.Proofs.FixedPoint.Pi
import Reckoner.Proofs.FixedPoint.Taylor

/-!
# Sine and cosine, reduced

The reduction takes a multiple of a π that is off by about a unit, so its error is about as many
units as the argument has turns (`exists_abs_reduceScaled_sub_le`).  Sine and cosine repeat and do
not stretch distances: what the reduction loses is added to what the series loses, and
`sinScaled`, `cosScaled` are within `7/20 * |x| + 4 w + 28` units (`abs_sinScaled_sub_le`,
`abs_cosScaled_sub_le`).  The part that grows with the argument is what the number of digits of
a result does not tell.

Beside the exact partial sums there is no such part: what the reduction leaves is in the range of
the kernel (`taylor_kernel_accurate`).

The width must be a word for this, and with the spare digits of π if the argument is reduced.
Past the words the kernel works with a unit that is not the one it is asked for
(`taylorScaled_past_word`).
-/

namespace Reckoner
namespace FixedPoint

/-! ## Reduction -/

section

variable (x : ℚ) {w : ℕ} (hw : 1 ≤ w)

/-- The turns that the reduction takes off. -/
def wholeTurns (x : ℚ) (w : ℕ) : ℤ := Rounding.nearest (ofRat x w) (piScaled w * 2)

theorem reduceScaled_eq (w : ℕ) :
    reduceScaled x w = ofRat x w - wholeTurns x w * (piScaled w * 2) :=
  rfl

theorem cast_reduceScaled (w : ℕ) :
    (reduceScaled x w : ℝ) = ofRat x w - wholeTurns x w * (piScaled w * 2) := by
  exact_mod_cast reduceScaled_eq x w

section

variable (hword : w + 10 < wordCount)
include hw hword

/-- What is left of the argument is at most half a turn. -/
theorem abs_reduceScaled_le : |reduceScaled x w| ≤ piScaled w := by
  have hturn : 0 < piScaled w * 2 := by linarith [piScaled_pos hw hword]
  have h := Rounding.two_mul_abs_sub_nearest_le (ofRat x w) hturn
  rw [reduceScaled_eq, wholeTurns]
  linarith

theorem abs_toRat_reduceScaled_le : |toRat (reduceScaled x w) w| ≤ 4 := by
  have hpi : (piScaled w : ℚ) ≤ 4 * 10 ^ w := by exact_mod_cast (piScaled_bounds hw hword).2
  have hr : |(reduceScaled x w : ℚ)| ≤ piScaled w := by
    exact_mod_cast abs_reduceScaled_le x hw hword
  refine abs_toRat_le ?_
  rw [toWord_of_lt (by omega)]
  exact hr.trans hpi

end

variable (hwidth : w ≤ 10 ^ 7)

section

include hwidth

/-- With the spare digits of π, such a width is a word. -/
theorem add_spare_lt_wordCount : w + 10 < wordCount :=
  (Nat.add_le_add_right hwidth 10).trans_lt (by decide)

theorem toWord_of_width : toWord w = w :=
  toWord_of_lt ((Nat.le_add_right w 10).trans_lt (add_spare_lt_wordCount hwidth))

/-- Up to ten million digits, π is off by little more than a unit. -/
theorem abs_piScaled_sub_pi_le_of_width : |(piScaled w : ℝ) - 10 ^ w * Real.pi| ≤ 103 / 100 := by
  have hw' : (w : ℝ) ≤ 10 ^ 7 := by exact_mod_cast hwidth
  refine (abs_piScaled_sub_pi_le (add_spare_lt_wordCount hwidth)).trans ?_
  linarith

/-- The argument in units is off by at most half of one. -/
theorem abs_ofRat_sub_le_of_width : |(ofRat x w : ℝ) - 10 ^ w * x| ≤ 1 / 2 := by
  have h := abs_ofRat_sub_mul_le x w
  rwa [toWord_of_width hwidth] at h

end

include hw hwidth

/-- An argument has at most a turn for every six units, and one more. -/
theorem abs_wholeTurns_le : |(wholeTurns x w : ℝ)| ≤ |(x : ℝ)| / 6 + 1 := by
  have hword := add_spare_lt_wordCount hwidth
  have hunit : (10 : ℝ) ≤ 10 ^ w := le_self_pow₀ (by norm_num) (by omega)
  have hlow := (piScaled_bounds hw hword).1
  have hofRat := abs_ofRat_sub_le_of_width x hwidth
  have hleft : |(ofRat x w : ℝ) - wholeTurns x w * (piScaled w * 2)| ≤ piScaled w := by
    rw [← cast_reduceScaled]
    exact_mod_cast abs_reduceScaled_le x hw hword
  set k := wholeTurns x w
  set turn : ℝ := piScaled w * 2 with hturn
  have hpos : 0 < turn := by linarith
  refine le_of_mul_le_mul_right ?_ hpos
  calc |(k : ℝ)| * turn = |(k : ℝ) * turn| := by rw [abs_mul, abs_of_pos hpos]
    _ ≤ |10 ^ w * (x : ℝ)| + |(ofRat x w : ℝ) - 10 ^ w * x| + |(ofRat x w : ℝ) - k * turn| := by
      have htriangle := abs_sub (10 ^ w * (x : ℝ) + (ofRat x w - 10 ^ w * x))
        (ofRat x w - k * turn)
      rw [show 10 ^ w * (x : ℝ) + (ofRat x w - 10 ^ w * x) - (ofRat x w - k * turn) = k * turn
        by ring] at htriangle
      exact htriangle.trans (add_le_add_left (abs_add_le _ _) _)
    _ ≤ 10 ^ w * |(x : ℝ)| + 1 / 2 + turn / 2 := by
      rw [abs_mul, abs_of_pos (by linarith : (0 : ℝ) < 10 ^ w)]
      linarith
    _ ≤ (|(x : ℝ)| / 6 + 1) * turn := by
      nlinarith [abs_nonneg (x : ℝ)]

/-- **The error of the reduction.**  What is left differs from the argument less whole turns by
about a third of a unit for each unit of the argument. -/
theorem exists_abs_reduceScaled_sub_le :
    ∃ k : ℤ, |(reduceScaled x w : ℝ) - 10 ^ w * (x - k * (2 * Real.pi))| ≤
      7 / 20 * |(x : ℝ)| + 3 := by
  set k := wholeTurns x w with hk
  refine ⟨k, ?_⟩
  have hofRat := abs_ofRat_sub_le_of_width x hwidth
  have hsplit : (reduceScaled x w : ℝ) - 10 ^ w * (x - k * (2 * Real.pi)) =
      (ofRat x w - 10 ^ w * x) - k * (2 * (piScaled w - 10 ^ w * Real.pi)) := by
    rw [cast_reduceScaled, ← hk]
    ring
  have hturnError : |(k : ℝ) * (2 * (piScaled w - 10 ^ w * Real.pi))| ≤
      (|(x : ℝ)| / 6 + 1) * (2 * (103 / 100)) := by
    have hturns := abs_wholeTurns_le x hw hwidth
    have hpi := abs_piScaled_sub_pi_le_of_width hwidth
    rw [abs_mul, abs_mul, abs_two]
    gcongr
  calc |(reduceScaled x w : ℝ) - 10 ^ w * (x - k * (2 * Real.pi))|
      ≤ |(ofRat x w : ℝ) - 10 ^ w * x| + |(k : ℝ) * (2 * (piScaled w - 10 ^ w * Real.pi))| := by
        rw [hsplit]
        exact abs_sub _ _
    _ ≤ 1 / 2 + (|(x : ℝ)| / 6 + 1) * (2 * (103 / 100)) := add_le_add hofRat hturnError
    _ ≤ 7 / 20 * |(x : ℝ)| + 3 := by linarith [abs_nonneg (x : ℝ)]

/-! ## Sine and cosine -/

/-- A function that repeats with every turn and does not stretch distances is as accurate at
the argument as at what the reduction leaves, up to the error of the reduction. -/
theorem abs_sub_le_of_reduced {f : ℝ → ℝ} (hstretch : ∀ a b, |f a - f b| ≤ |a - b|)
    (hperiod : ∀ a (k : ℤ), f (a - k * (2 * Real.pi)) = f a) {v : ℤ}
    (hv : |(v : ℝ) - 10 ^ w * f (toRat (reduceScaled x w) w)| ≤ 4 * w + 25) :
    |(v : ℝ) - 10 ^ w * f x| ≤ 7 / 20 * |(x : ℝ)| + 4 * w + 28 := by
  obtain ⟨k, hk⟩ := exists_abs_reduceScaled_sub_le x hw hwidth
  have hunit : (0 : ℝ) < 10 ^ w := by positivity
  have hr : (reduceScaled x w : ℝ) = 10 ^ w * (toRat (reduceScaled x w) w : ℚ) := by
    rw [toRat_eq, toWord_of_width hwidth]
    push_cast
    field_simp
  have hreduced : |10 ^ w * f (toRat (reduceScaled x w) w) - 10 ^ w * f x| ≤
      7 / 20 * |(x : ℝ)| + 3 := by
    rw [← hperiod x k, ← mul_sub, abs_mul, abs_of_pos hunit]
    calc _ ≤ 10 ^ w * |(toRat (reduceScaled x w) w : ℝ) - (x - k * (2 * Real.pi))| :=
          mul_le_mul_of_nonneg_left (hstretch _ _) hunit.le
      _ = |(reduceScaled x w : ℝ) - 10 ^ w * (x - k * (2 * Real.pi))| := by
          rw [hr, ← mul_sub, abs_mul, abs_of_pos hunit]
      _ ≤ _ := hk
  calc _ ≤ |(v : ℝ) - 10 ^ w * f (toRat (reduceScaled x w) w)| +
          |10 ^ w * f (toRat (reduceScaled x w) w) - 10 ^ w * f x| := abs_sub_le _ _ _
    _ ≤ 7 / 20 * |(x : ℝ)| + 4 * w + 28 := by linarith

/-- **The sine is accurate** up to a number of units that grows with the argument. -/
theorem abs_sinScaled_sub_le :
    |(sinScaled x w : ℝ) - 10 ^ w * Real.sin x| ≤ 7 / 20 * |(x : ℝ)| + 4 * w + 28 := by
  have hkernel := abs_taylorScaled_sub_sin_le
    (abs_toRat_reduceScaled_le x hw (add_spare_lt_wordCount hwidth))
  rw [toWord_of_width hwidth] at hkernel
  exact abs_sub_le_of_reduced x hw hwidth Real.abs_sin_sub_sin_le Real.sin_sub_int_mul_two_pi
    hkernel

/-- **The cosine is accurate** up to a number of units that grows with the argument. -/
theorem abs_cosScaled_sub_le :
    |(cosScaled x w : ℝ) - 10 ^ w * Real.cos x| ≤ 7 / 20 * |(x : ℝ)| + 4 * w + 28 := by
  have hkernel := abs_taylorScaled_sub_cos_le
    (abs_toRat_reduceScaled_le x hw (add_spare_lt_wordCount hwidth))
  rw [toWord_of_width hwidth] at hkernel
  exact abs_sub_le_of_reduced x hw hwidth Real.abs_cos_sub_cos_le Real.cos_sub_int_mul_two_pi
    hkernel

end

/-! ## Beside the exact series -/

/-- At a small argument the first term is almost all of the sine. -/
theorem abs_sum_sine_sub_le {R : ℚ} (hR : |R| ≤ 1 / 2) (N : ℕ) :
    |∑ i ∈ Finset.range (N + 1), (-1) ^ i * R ^ (2 * i + 1) / (2 * i + 1).factorial - R| ≤
      2 * |R| ^ 3 := by
  have hterm (i : ℕ) : |(-1) ^ (i + 1) * R ^ (2 * (i + 1) + 1) / (2 * (i + 1) + 1).factorial| ≤
      |R| ^ 3 * (1 / 2) ^ i := by
    have hfactorial : (1 : ℚ) ≤ (2 * (i + 1) + 1).factorial := by
      exact_mod_cast Nat.factorial_pos _
    have hsquare : |R| ^ 2 ≤ 1 / 2 := by nlinarith [abs_nonneg R]
    rw [abs_div, abs_mul, abs_pow, abs_pow, abs_neg, abs_one, one_pow, one_mul, Nat.abs_cast]
    calc |R| ^ (2 * (i + 1) + 1) / (2 * (i + 1) + 1).factorial ≤ |R| ^ (2 * (i + 1) + 1) :=
          div_le_self (by positivity) hfactorial
      _ = |R| ^ 3 * (|R| ^ 2) ^ i := by ring
      _ ≤ |R| ^ 3 * (1 / 2) ^ i := by gcongr
  have hgeometric : ∑ i ∈ Finset.range N, (1 / 2 : ℚ) ^ i ≤ 2 := by
    have hpow : (0 : ℚ) ≤ (1 / 2) ^ N := by positivity
    rw [geom_sum_eq (by norm_num), div_le_iff_of_neg (by norm_num)]
    linarith
  rw [Finset.sum_range_succ', Nat.mul_zero, Nat.zero_add, pow_zero, one_mul, pow_one,
    Nat.factorial_one, Nat.cast_one, div_one, add_sub_cancel_right]
  calc _ ≤ ∑ i ∈ Finset.range N, |R| ^ 3 * (1 / 2) ^ i :=
        (Finset.abs_sum_le_sum_abs _ _).trans (Finset.sum_le_sum fun i _ => hterm i)
    _ ≤ 2 * |R| ^ 3 := by
        rw [← Finset.mul_sum, mul_comm]
        gcongr

theorem abs_sum_sine_div_sub_le {R : ℚ} (hpos : 0 < R) (hR : R ≤ 1 / 2) (N : ℕ) :
    |(∑ i ∈ Finset.range (N + 1), (-1) ^ i * R ^ (2 * i + 1) / (2 * i + 1).factorial) / R - 1| ≤
      2 * R ^ 2 := by
  have h := abs_sum_sine_sub_le (by rwa [abs_of_pos hpos]) N
  rw [abs_of_pos hpos] at h
  rw [div_sub_one hpos.ne', abs_div, abs_of_pos hpos, div_le_iff₀ hpos]
  calc _ ≤ 2 * R ^ 3 := h
    _ = 2 * R ^ 2 * R := by ring

/-- **The kernel of sine and cosine is accurate.**  The reduction leaves an argument of at most
four, and there both series are within ten units for each digit of the width of the exact partial
sums, however many terms these have.  For the series the width has to be a word of 32 bits, and for
the reduction the width with the spare digits of π. -/
theorem taylor_kernel_accurate {w : ℕ} (hw : 12 ≤ w) :
    (w + piSpareDigits < wordCount → ∀ x : ℚ,
      |reduceScaled x w| ≤ piScaled w ∧ piScaled w ≤ 4 * 10 ^ w) ∧
    (w < wordCount → ∀ (r : ℤ) (N : ℕ), |r| ≤ 4 * 10 ^ w → w + 10 ≤ N →
      |(taylorScaled r r 1 w : ℚ) - 10 ^ w * ∑ i ∈ Finset.range N,
          (-1) ^ i * ((r : ℚ) / 10 ^ w) ^ (2 * i + 1) / (2 * i + 1).factorial| ≤ 10 * w ∧
      |(taylorScaled r (tenPow w) 0 w : ℚ) - 10 ^ w * ∑ i ∈ Finset.range N,
          (-1) ^ i * ((r : ℚ) / 10 ^ w) ^ (2 * i) / (2 * i).factorial| ≤ 10 * w) := by
  refine ⟨?_, ?_⟩
  · intro hword x
    have hpi := (piScaled_bounds (by omega) hword).2
    exact ⟨abs_reduceScaled_le x (by omega) hword, by exact_mod_cast hpi⟩
  · intro hword r N hr hN
    have hwidth : toWord w = w := toWord_of_lt hword
    have hunit : wordTenPow w = tenPow w := wordTenPow_of_lt hword
    have hR : |toRat r w| ≤ 4 := by
      refine abs_toRat_le ?_
      rw [hwidth]
      exact_mod_cast hr
    have hbudget : 4 * (w : ℚ) + 25 ≤ 10 * w := by
      have hw' : (12 : ℚ) ≤ w := by exact_mod_cast hw
      linarith
    have hsin := abs_taylorScaled_sub_le hR le_rfl (first_eq_taylorTerm_one r w) (N := N) (by omega)
    have hcos := abs_taylorScaled_sub_le hR (Nat.zero_le 1) (first_eq_taylorTerm_zero r w) (N := N)
      (by omega)
    simp only [taylorTerm_one, toRat_eq, hwidth] at hsin
    simp only [taylorTerm_zero, toRat_eq, hwidth, hunit] at hcos
    exact ⟨hsin.trans hbudget, hcos.trans hbudget⟩

/-- The largest argument: the terms grow up to degree three or four before they shrink. -/
theorem taylor_kernel_accurate_minusFour :
    12 ≤ 12 ∧ 12 < wordCount ∧ |(-4 * 10 ^ 12 : ℤ)| ≤ 4 * 10 ^ 12 ∧ 12 + 10 ≤ 22 ∧
    taylorScaled (-4 * 10 ^ 12) (-4 * 10 ^ 12) 1 12 = 756802495307 ∧
    taylorScaled (-4 * 10 ^ 12) (tenPow 12) 0 12 = -653643620864 ∧
    |((756802495307 : ℤ) : ℚ) - 10 ^ 12 * ∑ i ∈ Finset.range 22, (-1) ^ i *
      (((-4 * 10 ^ 12 : ℤ) : ℚ) / 10 ^ 12) ^ (2 * i + 1) / (2 * i + 1).factorial| ≤
        10 * ((12 : ℕ) : ℚ) ∧
    |((-653643620864 : ℤ) : ℚ) - 10 ^ 12 * ∑ i ∈ Finset.range 22, (-1) ^ i *
      (((-4 * 10 ^ 12 : ℤ) : ℚ) / 10 ^ 12) ^ (2 * i) / (2 * i).factorial| ≤
        10 * ((12 : ℕ) : ℚ) := by
  have hword : 12 < wordCount := by decide
  have hr : |(-4 * 10 ^ 12 : ℤ)| ≤ 4 * 10 ^ 12 := by norm_num
  have hsin : taylorScaled (-4 * 10 ^ 12) (-4 * 10 ^ 12) 1 12 = 756802495307 := by decide +kernel
  have hcos : taylorScaled (-4 * 10 ^ 12) (tenPow 12) 0 12 = -653643620864 := by decide +kernel
  have h := (taylor_kernel_accurate (w := 12) le_rfl).2 hword (-4 * 10 ^ 12) 22 hr le_rfl
  rw [hsin, hcos] at h
  exact ⟨le_rfl, hword, hr, le_rfl, hsin, hcos, h.1, h.2⟩

/-- Twelve decimals more than a word counts: the kernel keeps the twelve, so that its argument is
one, where it stands for a number that is almost zero. -/
theorem taylorScaled_past_word :
    taylorScaled (10 ^ 12) (10 ^ 12) 1 (wordCount + 12) = 841470984808 ∧
      |(10 ^ 12 : ℤ)| ≤ 4 * 10 ^ (wordCount + 12) ∧
      ∀ N, wordCount + 12 + 10 ≤ N →
        ¬|(taylorScaled (10 ^ 12) (10 ^ 12) 1 (wordCount + 12) : ℚ) -
            10 ^ (wordCount + 12) * ∑ i ∈ Finset.range N, (-1) ^ i *
              (((10 ^ 12 : ℤ) : ℚ) / 10 ^ (wordCount + 12)) ^ (2 * i + 1) /
                (2 * i + 1).factorial| ≤ 10 * (wordCount + 12 : ℕ) := by
  have hvalue : taylorScaled (10 ^ 12) (10 ^ 12) 1 (wordCount + 12) = 841470984808 := by
    decide +kernel
  have hlarge : (10 : ℚ) ^ 7 ≤ 10 ^ wordCount := pow_le_pow_right₀ (by norm_num) (by decide)
  have hcount : ((wordCount + 12 : ℕ) : ℚ) = 4294967308 := by norm_num [wordCount]
  refine ⟨hvalue, ?_, ?_⟩
  · have h : (10 : ℤ) ^ 12 ≤ 10 ^ (wordCount + 12) := pow_le_pow_right₀ (by norm_num) (by omega)
    rw [abs_of_pos (by norm_num)]
    linarith
  · intro N hN
    obtain ⟨M, rfl⟩ := Nat.exists_eq_add_of_le' (by omega : 1 ≤ N)
    rw [hvalue, hcount]
    push_cast
    rw [pow_add]
    generalize (10 : ℚ) ^ wordCount = unit at hlarge
    have hpos : 0 < unit := by linarith
    have hR : 1000000000000 / (unit * 10 ^ 12) = 1 / unit := by
      field_simp
      norm_num
    have hsmall : 1 / unit ≤ 1 / 10 ^ 7 := one_div_le_one_div_of_le (by norm_num) hlarge
    have hsine := abs_sum_sine_div_sub_le (one_div_pos.2 hpos) (hsmall.trans (by norm_num)) M
    have hsquare : (1 / unit) ^ 2 ≤ (1 / 10 ^ 7) ^ 2 := by gcongr
    rw [hR]
    generalize ∑ i ∈ Finset.range (M + 1), (-1) ^ i * (1 / unit) ^ (2 * i + 1) /
      ((2 * i + 1).factorial : ℚ) = sine at hsine ⊢
    -- in units the sine is its argument, or almost
    rw [div_div_eq_mul_div, div_one, mul_comm sine] at hsine
    intro hclose
    linarith [(abs_le.1 hclose).1, (abs_le.1 hsine).1]

end FixedPoint
end Reckoner

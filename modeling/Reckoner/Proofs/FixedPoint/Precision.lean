import Mathlib
import Reckoner.Proofs.FixedPoint.Trigonometry
import Reckoner.Proofs.FixedPoint.Widening

/-!
# How many digits are right

A result is accepted when it has enough digits, counted from the first nonzero one to the unit of
the last place.  That tells its precision only if the error is a few units.  For sine and cosine
the reduction makes the error grow with the argument, so that results at a large argument near a
zero of the function are accepted although they contradict each other (`sin_not_refined`).

If, beyond the precision, a digit is known for each digit before the point of the argument, then
the results are right: raising the precision changes a result by no more than a unit of its last
digit (`trig_refines`).  Arguments below a million need no more digits than are asked for
(`soundDigits_eq_wantedDigits`).
-/

namespace Reckoner
namespace FixedPoint

/-! ## Widened results -/

/-- A fixed-point function of an angle, widened like sine and cosine: its integer and the width
of its unit. -/
def widened (scaled : ℚ → ℕ → ℤ) (x : ℚ) (precision : ℕ) : ℤ × ℕ :=
  widen precision (angleWidth x precision) fun w => (scaled x w, knownDigits (scaled x w))

/-- The digits known of a widened result. -/
def digitsKnown (scaled : ℚ → ℕ → ℤ) (x : ℚ) (precision : ℕ) : ℕ :=
  knownDigits (widened scaled x precision).1

theorem sin_eq_toRat {x : ℚ} (hx : x.num ≠ 0) (precision : ℕ) :
    sin x precision =
      toRat (widened sinScaled x precision).1 (widened sinScaled x precision).2 := by
  rw [sin, if_neg hx]
  rfl

theorem cos_eq_toRat (x : ℚ) (precision : ℕ) :
    cos x precision = toRat (widened cosScaled x precision).1 (widened cosScaled x precision).2 :=
  rfl

/-- As long as the widths are sizes, they lie between the guard digits and the limit. -/
theorem widened_spec (scaled : ℚ → ℕ → ℤ) {x : ℚ} {precision : ℕ}
    (hsize : 5 * precision + 60 + integerDigits x < sizeCount) :
    ∃ w, guardDigits ≤ w ∧ w ≤ 5 * precision + 60 + integerDigits x ∧
      widened scaled x precision = (scaled x w, w) := by
  have hfirst : angleWidth x precision = precision + guardDigits + integerDigits x := by
    refine toSize_of_lt ?_
    rw [guardDigits]
    omega
  have hlimit : angleWidth x precision + 4 * (precision + guardDigits) < sizeCount := by
    rw [hfirst, guardDigits]
    omega
  obtain ⟨w, hlow, hhigh, -, hresult⟩ := widen_spec
    (fun w => (scaled x w, knownDigits (scaled x w))) hlimit
  rw [widthLimit_of_lt hlimit] at hhigh
  rw [hfirst, guardDigits] at hlow hhigh
  exact ⟨w, by rw [guardDigits]; omega, by omega, hresult⟩

theorem widened_of_known {scaled : ℚ → ℕ → ℤ} {x : ℚ} {precision : ℕ}
    (h : wantedDigits precision ≤ knownDigits (scaled x (angleWidth x precision))) :
    widened scaled x precision = (scaled x (angleWidth x precision), angleWidth x precision) :=
  widenFrom_of_known _ h

theorem digitsKnown_of_known {scaled : ℚ → ℕ → ℤ} {x : ℚ} {precision : ℕ}
    (h : wantedDigits precision ≤ knownDigits (scaled x (angleWidth x precision))) :
    digitsKnown scaled x precision = knownDigits (scaled x (angleWidth x precision)) := by
  rw [digitsKnown, widened_of_known h]

/-! ## Digits that are not right -/

/-- A hundred million times π, cut off after eighteen decimals. -/
def nearZeroAngle : ℚ := 157079632679489661923132169 / 500000000000000000

/-- At precisions one and two the sine of this angle has as many digits as are asked for, but
the two results differ by more than the first one promises. -/
theorem sin_not_refined :
    wantedDigits 1 ≤ digitsKnown sinScaled nearZeroAngle 1 ∧
      wantedDigits 2 ≤ digitsKnown sinScaled nearZeroAngle 2 ∧
      ¬ |sin nearZeroAngle 1 - sin nearZeroAngle 2| ≤
        (10 : ℚ) ^ (1 - (1 : ℤ)) * |sin nearZeroAngle 2| := by
  have hnum : nearZeroAngle.num ≠ 0 := by decide +kernel
  have hfirst : sinScaled nearZeroAngle (angleWidth nearZeroAngle 1) = 43380000 := by
    decide +kernel
  have hsecond : sinScaled nearZeroAngle (angleWidth nearZeroAngle 2) = 33800000 := by
    decide +kernel
  have hknownFirst : wantedDigits 1 ≤ knownDigits 43380000 := by decide +kernel
  have hknownSecond : wantedDigits 2 ≤ knownDigits 33800000 := by decide +kernel
  have hwidthFirst : angleWidth nearZeroAngle 1 = 22 := by decide +kernel
  have hwidthSecond : angleWidth nearZeroAngle 2 = 23 := by decide +kernel
  have hone : widened sinScaled nearZeroAngle 1 = (43380000, 22) := by
    rw [widened_of_known (hknownFirst.trans_eq (by rw [hfirst])), hfirst, hwidthFirst]
  have htwo : widened sinScaled nearZeroAngle 2 = (33800000, 23) := by
    rw [widened_of_known (hknownSecond.trans_eq (by rw [hsecond])), hsecond, hwidthSecond]
  rw [digitsKnown, digitsKnown, sin_eq_toRat hnum, sin_eq_toRat hnum, hone, htwo, toRat_eq,
    toRat_eq, toWord_of_lt (by decide : 22 < wordCount), toWord_of_lt (by decide : 23 < wordCount)]
  refine ⟨hknownFirst, hknownSecond, ?_⟩
  norm_num

/-! ## Digits that are right -/

/-- The digits that must be known for a result to be right at this precision: beyond the
precision, the spare digits that are asked for, or one for each digit before the point of the
angle if these are more. -/
def soundDigits (x : ℚ) (precision : ℕ) : ℕ :=
  precision + max (guardDigits / 2) (integerDigits x)

/-- For angles below a million they are the digits that are asked for. -/
theorem soundDigits_eq_wantedDigits {x : ℚ} (hx : integerDigits x ≤ 6) {precision : ℕ}
    (hsize : precision + guardDigits / 2 < sizeCount) :
    soundDigits x precision = wantedDigits precision := by
  rw [soundDigits, wantedDigits, toSize_of_lt hsize,
    max_eq_left (show integerDigits x ≤ guardDigits / 2 from hx)]

/-- The guard digits outweigh the errors of the series. -/
theorem series_error_le {D : ℕ} (hD : 6 ≤ D) : 100268 + 4 * (D : ℝ) ≤ 11 / 100 * 10 ^ D := by
  induction D, hD using Nat.le_induction with
  | base => norm_num
  | succ D hD ih =>
    have hunit : (10 : ℝ) ^ 6 ≤ 10 ^ D := pow_le_pow_right₀ (by norm_num) hD
    rw [pow_succ]
    push_cast
    linarith

/-- Two approximations of a number, the second ten times as good as the first, differ by as much
as the first one promises. -/
theorem abs_sub_le_of_close {y v v' τ : ℝ} (hτ : 0 ≤ τ) (hτ1 : τ ≤ 1)
    (hv : |v - y| ≤ 23 / 50 * τ * |v|) (hv' : |v' - y| ≤ 23 / 50 * (τ / 10) * |v'|) :
    |v - v'| ≤ τ * |v'| := by
  have hdistance : |v - v'| ≤ |v - y| + |v' - y| := by
    rw [abs_sub_comm v' y]
    exact abs_sub_le v y v'
  have hmagnitude : |v| ≤ |v - v'| + |v'| := by
    have h := abs_add_le (v - v') v'
    rwa [sub_add_cancel] at h
  have hshare : τ * |v| ≤ |v - v'| + τ * |v'| := by
    calc τ * |v| ≤ τ * (|v - v'| + |v'|) := mul_le_mul_of_nonneg_left hmagnitude hτ
      _ ≤ |v - v'| + τ * |v'| := by
        rw [mul_add]
        exact add_le_add_left (mul_le_of_le_one_left (abs_nonneg _) hτ1) _
  have hpositive : 0 ≤ τ * |v'| := mul_nonneg hτ (abs_nonneg _)
  linarith

section

variable {scaled : ℚ → ℕ → ℤ} {f : ℝ → ℝ}
  (haccurate : ∀ (x : ℚ) {w : ℕ}, 1 ≤ w → w ≤ 10 ^ 7 →
    |(scaled x w : ℝ) - 10 ^ w * f x| ≤ 7 / 20 * |(x : ℝ)| + 4 * w + 28)
include haccurate

/-- **Known digits are right.**  A result with enough digits is off by less than half a unit of
the last digit that the precision promises. -/
theorem abs_toRat_widened_sub_le {x : ℚ} {precision : ℕ} (hprecision : precision + 1 ≤ 5000)
    (hx : integerDigits x ≤ 10 ^ 6)
    (hknown : soundDigits x (precision + 1) ≤ digitsKnown scaled x (precision + 1)) :
    |(toRat (widened scaled x (precision + 1)).1 (widened scaled x (precision + 1)).2 : ℝ) - f x| ≤
      23 / 50 / 10 ^ precision * |(toRat (widened scaled x (precision + 1)).1
        (widened scaled x (precision + 1)).2 : ℝ)| := by
  have hsize : 5 * (precision + 1) + 60 + integerDigits x < sizeCount := by
    refine lt_of_le_of_lt ?_ (by decide : 25060 + 10 ^ 6 < sizeCount)
    omega
  obtain ⟨w, hlow, hhigh, hresult⟩ := widened_spec scaled hsize
  have hword : toWord w = w := by
    refine toWord_of_lt (lt_of_le_of_lt ?_ (by decide : 25060 + 10 ^ 6 < wordCount))
    omega
  rw [digitsKnown, hresult] at hknown
  rw [hresult, toRat_eq]
  dsimp only at hknown ⊢
  rw [hword]
  set v := scaled x w with hv
  set D := max (guardDigits / 2) (integerDigits x) with hD
  have hsix : 6 ≤ D := le_max_left _ _
  have hwide : (w : ℝ) ≤ 25060 + D := by
    have h : w ≤ 25060 + D := by
      have := le_max_right (guardDigits / 2) (integerDigits x)
      omega
    exact_mod_cast h
  have hangle : |(x : ℝ)| ≤ 10 ^ D := by
    have hx' : (|x| : ℚ) ≤ 10 ^ D := (abs_lt_tenPow_integerDigits x).le.trans
      (pow_le_pow_right₀ (by norm_num) (le_max_right _ _))
    exact_mod_cast hx'
  have hdigits : (10 : ℝ) ^ precision * 10 ^ D ≤ |(v : ℝ)| := by
    rw [soundDigits, ← hD, Nat.add_right_comm] at hknown
    have h := tenPow_le_of_knownDigits hknown
    rw [pow_add] at h
    exact_mod_cast h
  have hunit : (0 : ℝ) < 10 ^ w := by positivity
  have herror : |(v : ℝ) - 10 ^ w * f x| ≤ 23 / 50 * 10 ^ D := by
    have h := haccurate x (w := w) ((by decide : 1 ≤ guardDigits).trans hlow) (by omega)
    linarith [series_error_le hsix]
  have hvalue : ((v / 10 ^ w : ℚ) : ℝ) = (v : ℝ) / 10 ^ w := by push_cast; rfl
  have hscaled : (v : ℝ) / 10 ^ w - f x = (v - 10 ^ w * f x) / 10 ^ w := by field_simp
  rw [hvalue, hscaled, abs_div, abs_div, abs_of_pos hunit, mul_div_assoc']
  gcongr
  calc |(v : ℝ) - 10 ^ w * f x| ≤ 23 / 50 * 10 ^ D := herror
    _ = 23 / 50 / 10 ^ precision * (10 ^ precision * 10 ^ D) := by field_simp
    _ ≤ 23 / 50 / 10 ^ precision * |(v : ℝ)| := by gcongr

/-- Raising the precision refines a result that has enough digits. -/
theorem toRat_widened_refines {x : ℚ} {p p' : ℕ} (hp : 1 ≤ p) (hpp : p ≤ p') (hp' : p' ≤ 5000)
    (hx : integerDigits x ≤ 10 ^ 6) (hknown : soundDigits x p ≤ digitsKnown scaled x p)
    (hknown' : soundDigits x p' ≤ digitsKnown scaled x p') :
    |toRat (widened scaled x p).1 (widened scaled x p).2 -
        toRat (widened scaled x p').1 (widened scaled x p').2| ≤
      (10 : ℚ) ^ (1 - (p : ℤ)) *
        |toRat (widened scaled x p').1 (widened scaled x p').2| := by
  obtain rfl | hlt := hpp.eq_or_lt
  · rw [sub_self, abs_zero]
    positivity
  obtain ⟨k, rfl⟩ := Nat.exists_eq_add_of_le' hp
  obtain ⟨k', rfl⟩ := Nat.exists_eq_add_of_le' (hp.trans hpp)
  have hfirst := abs_toRat_widened_sub_le haccurate (hpp.trans hp') hx hknown
  have hsecond := abs_toRat_widened_sub_le haccurate hp' hx hknown'
  have hunit : (1 : ℝ) ≤ 10 ^ k := one_le_pow₀ (by norm_num)
  have hstep : (10 : ℝ) ^ k * 10 ≤ 10 ^ k' := by
    rw [← pow_succ]
    exact pow_le_pow_right₀ (by norm_num) (by omega)
  have hratio : 23 / 50 / (10 : ℝ) ^ k' ≤ 23 / 50 * (1 / 10 ^ k / 10) := by
    rw [div_div 1, mul_one_div]
    gcongr
  have hclose := abs_sub_le_of_close (one_div_nonneg.2 (by positivity))
    ((div_le_one (by positivity)).2 hunit) (by rwa [mul_one_div])
    (hsecond.trans (mul_le_mul_of_nonneg_right hratio (abs_nonneg _)))
  have hpower : (10 : ℚ) ^ (1 - ((k + 1 : ℕ) : ℤ)) = 1 / 10 ^ k := by
    rw [show (1 : ℤ) - ((k + 1 : ℕ) : ℤ) = -(k : ℤ) by push_cast; ring, zpow_neg, zpow_natCast,
      one_div]
  rw [hpower, ← Rat.cast_le (K := ℝ)]
  push_cast
  exact hclose

end

/-- **Raising the precision only refines.**  Results of sine and cosine with enough digits change
by no more than a unit of the last digit of the smaller precision, for angles with up to a
million digits before the point and precisions up to five thousand: so far the ten spare digits
of π and the guard digits outweigh the errors of the series. -/
theorem trig_refines {x : ℚ} {p p' : ℕ} (hp : 1 ≤ p) (hpp : p ≤ p') (hp' : p' ≤ 5000)
    (hx : integerDigits x ≤ 10 ^ 6) :
    (soundDigits x p ≤ digitsKnown sinScaled x p → soundDigits x p' ≤ digitsKnown sinScaled x p' →
      |sin x p - sin x p'| ≤ (10 : ℚ) ^ (1 - (p : ℤ)) * |sin x p'|) ∧
    (soundDigits x p ≤ digitsKnown cosScaled x p → soundDigits x p' ≤ digitsKnown cosScaled x p' →
      |cos x p - cos x p'| ≤ (10 : ℚ) ^ (1 - (p : ℤ)) * |cos x p'|) := by
  refine ⟨fun hknown hknown' => ?_, fun hknown hknown' => ?_⟩
  · by_cases hzero : x.num = 0
    · have hsin (n : ℕ) : sin x n = 0 := if_pos hzero
      simp [hsin]
    · rw [sin_eq_toRat hzero, sin_eq_toRat hzero]
      exact toRat_widened_refines abs_sinScaled_sub_le hp hpp hp' hx hknown hknown'
  · rw [cos_eq_toRat, cos_eq_toRat]
    exact toRat_widened_refines abs_cosScaled_sub_le hp hpp hp' hx hknown hknown'

theorem trig_refines_nearPi :
    integerDigits (355 / 113) ≤ 10 ^ 6 ∧
      soundDigits (355 / 113) 5 ≤ digitsKnown sinScaled (355 / 113) 5 ∧
      soundDigits (355 / 113) 10 ≤ digitsKnown sinScaled (355 / 113) 10 ∧
      |sin (355 / 113) 5 - sin (355 / 113) 10| ≤
        (10 : ℚ) ^ (1 - ((5 : ℕ) : ℤ)) * |sin (355 / 113) 10| := by
  have hdigits : integerDigits (355 / 113) ≤ 10 ^ 6 := by decide +kernel
  have hfive : soundDigits (355 / 113) 5 ≤ digitsKnown sinScaled (355 / 113) 5 := by
    rw [digitsKnown_of_known (by decide +kernel)]
    decide +kernel
  have hten : soundDigits (355 / 113) 10 ≤ digitsKnown sinScaled (355 / 113) 10 := by
    rw [digitsKnown_of_known (by decide +kernel)]
    decide +kernel
  exact ⟨hdigits, hfive, hten,
    (trig_refines (by norm_num) (by norm_num) (by norm_num) hdigits).1 hfive hten⟩

end FixedPoint
end Reckoner

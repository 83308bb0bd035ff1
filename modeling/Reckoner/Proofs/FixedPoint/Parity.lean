import Mathlib
import Reckoner.Proofs.FixedPoint.Precision
import Reckoner.Proofs.Value.Significant

/-!
# Sine, cosine and tangent at the opposite angle

The symmetry is exact.  Every division of these calculations treats a number and its opposite
alike: rounding to the nearest puts the sign back last, and truncation goes towards zero.

* **Reduction** — `reduceScaled_neg`: the opposite angle takes the opposite number of turns.
* **Series** — `taylorScaled_neg` and `taylorScaled_neg_first`: the argument enters by its square
  only, so the sum has the sign of the first term, which is the angle for the sine and one for the
  cosine.
* **Widening** — `widened_of_odd` and `widened_of_even`: a result and its opposite know the same
  digits, so both angles stop at the same width.

`trig_parity` puts these together, with the rounding to significant digits.
-/

namespace Reckoner

/-- Rounding to significant digits commutes with the change of sign. -/
theorem Value.approximate_neg (q : ℚ) (digits : ℕ) :
    Value.approximate (-q) digits = -Value.approximate q digits := by
  rw [approximate, approximate, Decimal.significant_neg, ofDecimal_neg]

namespace FixedPoint

/-! ## Reduction and series -/

theorem reduceScaled_neg (x : ℚ) (w : ℕ) : reduceScaled (-x) w = -reduceScaled x w := by
  rw [reduceScaled, reduceScaled, ofRat_neg, Rounding.nearest_neg]
  ring

theorem taylorSeries_isOdd (r2 s : ℤ) (n : ℕ) : (taylorSeries r2 s n).IsOdd where
  next_neg j t := by
    show (-(-t * r2)).tdiv _ = -(-(t * r2)).tdiv _
    rw [Int.neg_mul, Int.neg_tdiv]
  contribution_neg _ _ := rfl

theorem taylorScaled_neg (r first : ℤ) (n w : ℕ) :
    taylorScaled (-r) first n w = taylorScaled r first n w := by
  rw [taylorScaled, taylorScaled, neg_mul_neg]

theorem taylorScaled_neg_first (r first : ℤ) (n w : ℕ) :
    taylorScaled r (-first) n w = -taylorScaled r first n w := by
  rw [taylorScaled, taylorScaled, taylorBound, taylorBound, halvings_neg,
    (taylorSeries_isOdd _ _ n).sum_neg]

theorem sinScaled_neg (x : ℚ) (w : ℕ) : sinScaled (-x) w = -sinScaled x w := by
  rw [sinScaled, sinScaled, reduceScaled_neg, taylorScaled_neg, taylorScaled_neg_first]

theorem cosScaled_neg (x : ℚ) (w : ℕ) : cosScaled (-x) w = cosScaled x w := by
  rw [cosScaled, cosScaled, reduceScaled_neg, taylorScaled_neg]

/-! ## Widening -/

theorem angleWidth_neg (x : ℚ) (precision : ℕ) :
    angleWidth (-x) precision = angleWidth x precision := by
  rw [angleWidth, angleWidth, integerDigits_neg]

section

variable {scaled : ℚ → ℕ → ℤ}

theorem widened_of_odd (hodd : ∀ x w, scaled (-x) w = -scaled x w) (x : ℚ) (precision : ℕ) :
    widened scaled (-x) precision =
      (-(widened scaled x precision).1, (widened scaled x precision).2) := by
  simp only [widened, angleWidth_neg, hodd, knownDigits_neg]
  exact widen_map (fun w => (scaled x w, knownDigits (scaled x w))) Neg.neg precision _

theorem widened_of_even (heven : ∀ x w, scaled (-x) w = scaled x w) (x : ℚ) (precision : ℕ) :
    widened scaled (-x) precision = widened scaled x precision := by
  simp only [widened, angleWidth_neg, heven]

end

/-! ## Parity -/

theorem sin_neg (x : ℚ) (precision : ℕ) : sin (-x) precision = -sin x precision := by
  by_cases hx : x.num = 0
  · have hx' : (-x).num = 0 := by rw [Rat.neg_num, hx, neg_zero]
    rw [sin, sin, if_pos hx, if_pos hx', neg_zero]
  · have hx' : (-x).num ≠ 0 := by rwa [Rat.neg_num, neg_ne_zero]
    rw [sin_eq_toRat hx, sin_eq_toRat hx', widened_of_odd sinScaled_neg, toRat_neg]

theorem cos_neg (x : ℚ) (precision : ℕ) : cos (-x) precision = cos x precision := by
  rw [cos_eq_toRat, cos_eq_toRat, widened_of_even cosScaled_neg]

/-- The numerator and denominator of a tangent: sine and cosine at one width, which is widened
until both have enough digits. -/
def sineAndCosine (x : ℚ) (precision : ℕ) : ℤ × ℤ :=
  (widen precision (angleWidth x precision) fun w =>
    ((sinScaled x w, cosScaled x w),
      min (knownDigits (sinScaled x w)) (knownDigits (cosScaled x w)))).1

theorem tan_eq_of_num_ne_zero {x : ℚ} (hx : x.num ≠ 0) (precision : ℕ) :
    tan x precision =
      if (sineAndCosine x precision).2 = 0 then .error (.arithmetic .undefinedTangent)
      else .ok (Rat.divInt (sineAndCosine x precision).1 (sineAndCosine x precision).2) := by
  rw [tan, if_neg hx]
  rfl

theorem sineAndCosine_neg (x : ℚ) (precision : ℕ) :
    sineAndCosine (-x) precision =
      (-(sineAndCosine x precision).1, (sineAndCosine x precision).2) := by
  simp only [sineAndCosine, angleWidth_neg, sinScaled_neg, cosScaled_neg, knownDigits_neg]
  exact congrArg Prod.fst (widen_map
    (fun w => ((sinScaled x w, cosScaled x w),
      min (knownDigits (sinScaled x w)) (knownDigits (cosScaled x w))))
    (fun p : ℤ × ℤ => (-p.1, p.2)) precision _)

/-- The tangent of the opposite angle is the opposite, or both are undefined. -/
theorem tan_neg (x : ℚ) (precision : ℕ) :
    (tan x precision = .error (.arithmetic .undefinedTangent) ∧
        tan (-x) precision = .error (.arithmetic .undefinedTangent)) ∨
      ∃ t, tan x precision = .ok t ∧ tan (-x) precision = .ok (-t) := by
  by_cases hx : x.num = 0
  · have hx' : (-x).num = 0 := by rw [Rat.neg_num, hx, neg_zero]
    exact .inr ⟨0, if_pos hx, by rw [neg_zero]; exact if_pos hx'⟩
  · have hx' : (-x).num ≠ 0 := by rwa [Rat.neg_num, neg_ne_zero]
    rw [tan_eq_of_num_ne_zero hx, tan_eq_of_num_ne_zero hx', sineAndCosine_neg]
    by_cases hcos : (sineAndCosine x precision).2 = 0
    · exact .inl ⟨if_pos hcos, if_pos hcos⟩
    · refine .inr ⟨_, if_neg hcos, ?_⟩
      rw [if_neg hcos, Rat.neg_divInt]

/-- **Parity.**  Sine and tangent are odd and cosine is even, exactly, at every precision; the
tangent is undefined at both angles or at neither.  The same holds after rounding to any number of
significant digits. -/
theorem trig_parity (x : ℚ) (precision : ℕ) :
    sin (-x) precision = -sin x precision ∧ cos (-x) precision = cos x precision ∧
    ((tan x precision = .error (.arithmetic .undefinedTangent) ∧
        tan (-x) precision = .error (.arithmetic .undefinedTangent)) ∨
      ∃ t, tan x precision = .ok t ∧ tan (-x) precision = .ok (-t) ∧
        ∀ digits, Value.approximate (-t) digits = -Value.approximate t digits) ∧
    ∀ digits,
      Value.approximate (sin (-x) precision) digits =
        -Value.approximate (sin x precision) digits ∧
      Value.approximate (cos (-x) precision) digits =
        Value.approximate (cos x precision) digits := by
  refine ⟨sin_neg x precision, cos_neg x precision, ?_, fun digits => ⟨?_, ?_⟩⟩
  · rcases tan_neg x precision with hundefined | ⟨t, ht, ht'⟩
    · exact .inl hundefined
    · exact .inr ⟨t, ht, ht', Value.approximate_neg t⟩
  · rw [sin_neg, Value.approximate_neg]
  · rw [cos_neg]

end FixedPoint
end Reckoner

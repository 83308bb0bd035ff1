import Mathlib
import Reckoner.Proofs.FixedPoint.Series
import Reckoner.Proofs.FixedPoint.Units

/-!
# Integer terms beside exact ones

The series of the exponential, of the inverse hyperbolic tangent, and of sine and cosine have one
recurrence: a term is multiplied by a fixed number of units, divided by a natural number, and
truncated.  `Series.Follows` says which exact recurrence that stands for, and by how much the factor
is off.

* `Series.Follows.abs_term_le`: truncation shrinks the terms, so none is larger than the exact one;
  they end where the exact ones drop below a unit (`Series.Follows.term_eq_zero`).
* `Series.Follows.abs_term_succ_sub_le`: the error of a term is that of the previous one, multiplied
  and divided like the term, the share of the error of the factor, and less than a unit from the
  division.
-/

namespace Reckoner
namespace FixedPoint

/-- The terms of `s` are multiplied by `a` units of `10 ^ -w` and divided by `d j`, like the exact
terms `g` by `A` and `d j`.  The `a` units are no more than `A`, and less by at most `ε` units. -/
structure Series.Follows (s : Series) (w : ℕ) (g : ℕ → ℚ) (a : ℤ) (A ε : ℚ) (d : ℕ → ℕ) :
    Prop where
  pos : ∀ j, 0 < d j
  next_eq : ∀ j t, s.next j t = (t * a).tdiv (wordTenPow w * d j)
  exact_succ : ∀ j, g (j + 1) = g j * A / d j
  abs_le : |toRat a w| ≤ |A|
  abs_sub_le : |toRat a w - A| ≤ ε / 10 ^ toWord w

namespace Series.Follows

variable {s : Series} {w : ℕ} {g : ℕ → ℚ} {a : ℤ} {A ε : ℚ} {d : ℕ → ℕ} {first : ℤ}
  (h : s.Follows w g a A ε d) (hfirst : |(first : ℚ)| ≤ 10 ^ toWord w * |g 0|)
include h hfirst

/-- Truncation shrinks the terms: none is larger than the exact one. -/
theorem abs_term_le (j : ℕ) : |(s.term first j : ℚ)| ≤ 10 ^ toWord w * |g j| := by
  induction j with
  | zero => exact hfirst
  | succ j ih =>
    have hnext := abs_tdiv_mul_le (s.term first j) a (wordTenPow w) (d j)
    have hfactor := h.abs_le
    rw [div_wordTenPow_eq_toRat] at hnext
    rw [term, h.next_eq]
    calc _ ≤ |(s.term first j : ℚ)| * |toRat a w| / |((d j : ℤ) : ℚ)| := hnext
      _ ≤ 10 ^ toWord w * |g j| * |A| / |((d j : ℤ) : ℚ)| := by gcongr
      _ = 10 ^ toWord w * |g (j + 1)| := by
        rw [h.exact_succ, abs_div, abs_mul]
        push_cast
        ring

/-- Where an exact term is below a unit, the integer term is zero. -/
theorem term_eq_zero {m : ℕ} (hm : 10 ^ toWord w * |g m| < 1) : s.term first m = 0 := by
  have hsmall := (h.abs_term_le hfirst m).trans_lt hm
  exact Int.abs_lt_one_iff.1 (by exact_mod_cast hsmall)

/-- The error of a term is that of the previous one, multiplied and divided like the term, the
share of the error of the factor, and less than a unit from the division. -/
theorem abs_term_succ_sub_le (j : ℕ) :
    |(s.term first (j + 1) : ℚ) - 10 ^ toWord w * g (j + 1)| ≤
      (|(s.term first j : ℚ) - 10 ^ toWord w * g j| * |A| + ε * |g j|) / d j + 1 := by
  have hpos : (0 : ℚ) < d j := by exact_mod_cast h.pos j
  have hstep := abs_tdiv_mul_sub_le (s.term first j) a (s := wordTenPow w) (d := d j)
    (by exact_mod_cast wordTenPow_pos w) (by exact_mod_cast h.pos j) (10 ^ toWord w * g j) A
  rw [div_wordTenPow_eq_toRat, Int.cast_natCast] at hstep
  -- what the factor loses is spread over the whole term
  have hshare : |(s.term first j : ℚ)| * |toRat a w - A| ≤ ε * |g j| := by
    calc _ ≤ 10 ^ toWord w * |g j| * (ε / 10 ^ toWord w) :=
          mul_le_mul (h.abs_term_le hfirst j) h.abs_sub_le (abs_nonneg _) (by positivity)
      _ = ε * |g j| := by field_simp
  rw [term, h.next_eq, h.exact_succ, mul_div_assoc', ← mul_assoc]
  refine hstep.trans ?_
  gcongr

end Series.Follows

end FixedPoint
end Reckoner

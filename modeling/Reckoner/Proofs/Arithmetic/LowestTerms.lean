import Mathlib
import Reckoner.Proofs.Arithmetic.Exact

/-!
# Ratios in lowest terms

A ratio that is asked for as such is not written as a decimal, even where its expansion is finite:
the terms are scaled to integers, the denominator is made positive and what Euclid's loop finds in
common is divided out (`ratio_eq`).  `LowestTerms` is the form that this comes to.  It is as much a
unique name for a number as the canonical form is:

* every number has one (`lowestTerms_ratioOf`, `toRat_ratioOf`) and no number has two
  (`LowestTerms.eq_of_toRat_eq`);
* the integers are told by their number (`LowestTerms.isInteger_iff`).

So two ratios are the same value if cross multiplication says that they are the same number
(`ratioOfValues_eq_iff`), and what both terms are multiplied by leaves no trace
(`ratioOfValues_mul_mul`).  `ratioOfValues_lowest_terms` puts these together.
-/

namespace Reckoner
namespace Value

/-! ## Lowest terms -/

/-- The form of a number that was made as a ratio: an integer, or two terms without a common
factor over a denominator greater than one.  A decimal is not of this form. -/
def LowestTerms : Value → Prop
  | integer _ => True
  | decimal _ => False
  | ratio q => 1 < q.den ∧ Nat.Coprime q.num.natAbs q.den

theorem lowestTerms_ratioOf (q : ℚ) : (ratioOf q).LowestTerms := by
  unfold ratioOf
  by_cases hden : q.den = 1
  · rw [if_pos hden]
    trivial
  · rw [if_neg hden]
    exact ⟨lt_of_le_of_ne q.den_pos (Ne.symm hden), q.reduced⟩

theorem toRat_ratioOf (q : ℚ) : (ratioOf q).toRat = q := by
  unfold ratioOf
  by_cases hden : q.den = 1
  · rw [if_pos hden]
    exact Rat.coe_int_num_of_den_eq_one hden
  · rw [if_neg hden]
    rfl

variable {v w : Value}

/-- Among the values in lowest terms the integers are those of an integral number. -/
theorem LowestTerms.isInteger_iff (h : v.LowestTerms) :
    (∃ n, v = integer n) ↔ ∃ n : ℤ, v.toRat = n := by
  cases v with
  | integer n => exact iff_of_true ⟨n, rfl⟩ ⟨n, rfl⟩
  | decimal d => exact h.elim
  | ratio q =>
    refine iff_of_false (by simp) ?_
    rintro ⟨n, hn⟩
    have hden : q.den = 1 := (congrArg Rat.den hn).trans (Rat.den_intCast n)
    exact absurd hden h.1.ne'

/-- No number has two values in lowest terms. -/
theorem LowestTerms.eq_of_toRat_eq (hv : v.LowestTerms) (hw : w.LowestTerms)
    (heq : v.toRat = w.toRat) : v = w := by
  cases v with
  | decimal d => exact hv.elim
  | integer n =>
    obtain ⟨m, rfl⟩ := hw.isInteger_iff.2 ⟨n, heq.symm⟩
    exact congrArg integer (Int.cast_inj.1 heq)
  | ratio q =>
    cases w with
    | decimal d => exact hw.elim
    | integer m =>
      obtain ⟨n, hn⟩ := hv.isInteger_iff.2 ⟨m, heq⟩
      cases hn
    | ratio r => exact congrArg ratio heq

theorem ratioOf_inj {q r : ℚ} : ratioOf q = ratioOf r ↔ q = r := by
  constructor
  · intro h
    rw [← toRat_ratioOf q, h, toRat_ratioOf]
  · rintro rfl
    rfl

end Value

namespace Arithmetic

open Value

/-! ## Ratios of values -/

variable (a b : Value)

theorem ratioOfValues_eq :
    ratioOfValues a b =
      if b.toRat = 0 then .error .divisionByZero else .ok (.ratioOf (a.toRat / b.toRat)) := by
  by_cases hb : b.toRat = 0
  · rw [if_pos hb, ratioOfValues, ratio, dif_pos ((cross_den_eq_zero_iff a b).2 hb)]
  · rw [if_neg hb, ratioOfValues, ratio_eq (by rwa [Ne, cross_den_eq_zero_iff]), div_cross]

variable {a b}

theorem ratioOfValues_eq_ok (hb : b.toRat ≠ 0) :
    ratioOfValues a b = .ok (.ratioOf (a.toRat / b.toRat)) := by
  rw [ratioOfValues_eq, if_neg hb]

theorem ratioOfValues_zero (hb : b.toRat = 0) : ratioOfValues a b = .error .divisionByZero := by
  rw [ratioOfValues_eq, if_pos hb]

/-- Ratios are the same value if they are the same by cross multiplication. -/
theorem ratioOfValues_eq_iff {c d : Value} (hb : b.toRat ≠ 0) (hd : d.toRat ≠ 0) :
    ratioOfValues a b = ratioOfValues c d ↔ a.toRat * d.toRat = c.toRat * b.toRat := by
  rw [ratioOfValues_eq_ok hb, ratioOfValues_eq_ok hd, Except.ok.injEq, ratioOf_inj,
    div_eq_div_iff hb hd]

/-- A common factor of the terms makes no difference. -/
theorem ratioOfValues_mul_mul {k : ℚ} {c d : Value} (hk : k ≠ 0) (hc : c.toRat = k * a.toRat)
    (hd : d.toRat = k * b.toRat) : ratioOfValues c d = ratioOfValues a b := by
  rw [ratioOfValues_eq, ratioOfValues_eq, hc, hd, mul_div_mul_left _ _ hk]
  exact if_congr (by rw [mul_eq_zero, or_iff_right hk]) rfl rfl

/-- Neither does a change of both signs. -/
theorem ratioOfValues_neg_neg : ratioOfValues (-a) (-b) = ratioOfValues a b := by
  rw [ratioOfValues_eq, ratioOfValues_eq, toRat_neg, toRat_neg, neg_div_neg_eq]
  exact if_congr neg_eq_zero rfl rfl

/-- **The ratio of two values** fails for a zero denominator only, and otherwise is the only value
of the number in lowest terms: an integer for an integral number, a ratio over a denominator
greater than one for any other, whether or not its expansion is finite.  Ratios are the same value
if they are the same number, so that signs and common factors of the terms make no difference. -/
theorem ratioOfValues_lowest_terms (a b : Value) :
    ((∃ f, ratioOfValues a b = .error f) ↔ b.toRat = 0) ∧
    (b.toRat = 0 → ratioOfValues a b = .error .divisionByZero) ∧
    (b.toRat ≠ 0 → ∃ v, ratioOfValues a b = .ok v ∧ v.LowestTerms ∧
      v.toRat = a.toRat / b.toRat ∧
      ((∃ n, v = .integer n) ↔ ∃ n : ℤ, a.toRat / b.toRat = n) ∧
      ∀ w : Value, w.LowestTerms → w.toRat = a.toRat / b.toRat → w = v) ∧
    (∀ c d : Value, b.toRat ≠ 0 → d.toRat ≠ 0 →
      (ratioOfValues a b = ratioOfValues c d ↔ a.toRat * d.toRat = c.toRat * b.toRat)) ∧
    ratioOfValues (-a) (-b) = ratioOfValues a b ∧
    ∀ (k : ℚ) (c d : Value), k ≠ 0 → c.toRat = k * a.toRat → d.toRat = k * b.toRat →
      ratioOfValues c d = ratioOfValues a b := by
  refine ⟨⟨?_, fun hb => ⟨_, ratioOfValues_zero hb⟩⟩, ratioOfValues_zero, fun hb => ?_,
    fun c d => ratioOfValues_eq_iff, ratioOfValues_neg_neg,
    fun k c d => ratioOfValues_mul_mul⟩
  · rintro ⟨f, hf⟩
    by_contra hb
    rw [ratioOfValues_eq_ok hb] at hf
    cases hf
  · have hlowest := lowestTerms_ratioOf (a.toRat / b.toRat)
    have hinteger := hlowest.isInteger_iff
    rw [toRat_ratioOf] at hinteger
    exact ⟨_, ratioOfValues_eq_ok hb, hlowest, toRat_ratioOf _, hinteger, fun w hw heq =>
      hw.eq_of_toRat_eq hlowest (heq.trans (toRat_ratioOf _).symm)⟩

/-- The terms `1.0` and `-8` make the ratio `-1/8`, as `-1/4` and `2` do, and as twice the terms
do, although the expansion of that number is finite. -/
theorem ratioOfValues_lowest_terms_finite_expansion :
    (integer (-8)).toRat ≠ 0 ∧ (integer 2).toRat ≠ 0 ∧
      ratioOfValues (decimal ⟨10, 1⟩) (integer (-8)) = .ok (.ratio (-1 / 8)) ∧
      ratioOfValues (decimal ⟨10, 1⟩) (integer (-8)) =
        ratioOfValues (.ratio (-1 / 4)) (integer 2) ∧
      ratioOfValues (decimal ⟨200, 2⟩) (integer (-16)) = .ok (.ratio (-1 / 8)) := by
  have hb : (integer (-8)).toRat ≠ 0 := by decide
  have hd : (integer 2).toRat ≠ 0 := by decide
  have hratio : ratioOfValues (decimal ⟨10, 1⟩) (integer (-8)) = .ok (.ratio (-1 / 8)) := by
    decide +kernel
  have hone : (decimal ⟨10, 1⟩).toRat = 1 := by
    rw [toRat, Decimal.toRat_eq_div]
    norm_num
  have htwo : (decimal ⟨200, 2⟩).toRat = 2 := by
    rw [toRat, Decimal.toRat_eq_div]
    norm_num
  obtain ⟨-, -, -, hsame, -, hfactor⟩ :=
    ratioOfValues_lowest_terms (decimal ⟨10, 1⟩) (integer (-8))
  refine ⟨hb, hd, hratio, (hsame _ _ hb hd).2 ?_,
    (hfactor 2 (decimal ⟨200, 2⟩) (integer (-16)) two_ne_zero ?_ ?_).trans hratio⟩
  · rw [hone, toRat, toRat, toRat]
    norm_num
  · rw [hone, htwo, mul_one]
  · rw [toRat, toRat]
    norm_num

end Arithmetic
end Reckoner

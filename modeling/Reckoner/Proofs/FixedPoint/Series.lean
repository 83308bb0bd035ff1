import Mathlib
import Reckoner.FixedPoint.Series

/-!
# Sums of integer series

A series that settles has no terms after its first zero.  Its sum is then the finite sum of
its contributions, up to any index whose term is zero (`Series.Settles.sum_eq_of_term_eq_zero`):
the bound that the loop is given cuts nothing off if the term at the bound is zero.

* `Series.term_eq_zero_of_natAbs_lt`, `Series.term_halvings`: terms that at least halve reach zero
  within as many steps as the first one has binary digits.
* `Series.IsBelow.sum_le`: a series whose terms stay below those of another has the smaller sum.
* `Series.IsOdd.sum_neg`: a series that keeps the sign of its first term has opposite sums.

An integer series stands beside an exact one.  `Series.Settles.abs_sum_sub_le` adds up the errors
of the contributions, and `abs_sub_mul_le_of_hasSum` carries a bound on all partial sums to their
limit.
-/

namespace Reckoner
namespace FixedPoint

open Finset

theorem natAbs_lt_halvings (t : ℤ) : t.natAbs < 2 ^ halvings t := Nat.lt_log2_self

namespace Series

/-- After a zero term come zero terms, and they add nothing. -/
structure Settles (s : Series) : Prop where
  next_zero : ∀ j, s.next j 0 = 0
  contribution_zero : ∀ j, s.contribution j 0 = 0

variable {s : Series} {first : ℤ}

theorem Settles.term_eq_zero (h : s.Settles) {j k : ℕ} (hjk : j ≤ k)
    (hj : s.term first j = 0) : s.term first k = 0 := by
  induction hjk with
  | refl => exact hj
  | step _ ih => rw [term, ih, h.next_zero]

theorem Settles.sumFrom_eq (h : s.Settles) (first : ℤ) (bound j : ℕ) :
    s.sumFrom bound j (s.term first j) =
      ∑ i ∈ range bound, s.contribution (j + i) (s.term first (j + i)) := by
  induction bound generalizing j with
  | zero => rfl
  | succ bound ih =>
    rw [sumFrom]
    split
    · rename_i hzero
      refine (sum_eq_zero fun i _ => ?_).symm
      rw [h.term_eq_zero (Nat.le_add_right j i) hzero, h.contribution_zero]
    · rw [sum_range_succ', show s.next j (s.term first j) = s.term first (j + 1) from rfl, ih,
        add_comm]
      simp only [Nat.add_zero, Nat.add_assoc, Nat.add_comm 1]

theorem Settles.sum_eq (h : s.Settles) (bound : ℕ) (first : ℤ) :
    s.sum bound first = ∑ j ∈ range bound, s.contribution j (s.term first j) := by
  calc s.sum bound first = s.sumFrom bound 0 (s.term first 0) := rfl
    _ = _ := by simpa only [Nat.zero_add] using h.sumFrom_eq first bound 0

/-- The sum does not depend on the bound, as long as it reaches a zero term. -/
theorem Settles.sum_eq_of_term_eq_zero (h : s.Settles) {bound N : ℕ}
    (hbound : s.term first bound = 0) (hN : s.term first N = 0) :
    s.sum bound first = ∑ j ∈ range N, s.contribution j (s.term first j) := by
  have hstops {k M : ℕ} (hk : s.term first k = 0) (hkM : k ≤ M) :
      ∑ j ∈ range M, s.contribution j (s.term first j) =
        ∑ j ∈ range k, s.contribution j (s.term first j) :=
    eventually_constant_sum
      (fun j hj => by rw [h.term_eq_zero hj hk, h.contribution_zero]) hkM
  rw [h.sum_eq]
  rcases le_total bound N with hle | hle
  · exact (hstops hbound hle).symm
  · exact hstops hN hle

/-! ## The end of the loop -/

/-- Terms that at least halve from the `m`-th one on. -/
theorem natAbs_term_mul_twoPow_le {m : ℕ}
    (h : ∀ j t, m ≤ j → 2 * (s.next j t).natAbs ≤ t.natAbs) (i : ℕ) :
    (s.term first (m + i)).natAbs * 2 ^ i ≤ (s.term first m).natAbs := by
  induction i with
  | zero => simp
  | succ i ih =>
    calc (s.term first (m + (i + 1))).natAbs * 2 ^ (i + 1)
        = 2 * (s.next (m + i) (s.term first (m + i))).natAbs * 2 ^ i := by
          rw [← Nat.add_assoc, term, pow_succ]
          ring
      _ ≤ (s.term first (m + i)).natAbs * 2 ^ i :=
          Nat.mul_le_mul_right _ (h _ _ (Nat.le_add_right m i))
      _ ≤ (s.term first m).natAbs := ih

/-- Terms that at least halve from the `m`-th one on have reached zero where the powers of two have
outgrown that one. -/
theorem term_eq_zero_of_natAbs_lt {m k : ℕ}
    (h : ∀ j t, m ≤ j → 2 * (s.next j t).natAbs ≤ t.natAbs)
    (hk : (s.term first m).natAbs < 2 ^ k) : s.term first (m + k) = 0 := by
  have hhalved := (natAbs_term_mul_twoPow_le h k).trans_lt hk
  rw [← Int.natAbs_eq_zero]
  exact Nat.lt_one_iff.1 (Nat.lt_of_mul_lt_mul_right (hhalved.trans_eq (one_mul _).symm))

/-- Terms that at least halve each time have reached zero after as many steps as the first one
has binary digits. -/
theorem term_halvings (h : ∀ j t, 2 * (s.next j t).natAbs ≤ t.natAbs) (first : ℤ) :
    s.term first (halvings first) = 0 := by
  have hzero : s.term first (0 + halvings first) = 0 :=
    term_eq_zero_of_natAbs_lt (fun j t _ => h j t) (natAbs_lt_halvings first)
  rwa [Nat.zero_add] at hzero

/-! ## Larger and smaller series -/

/-- On terms that are not negative, the series `s` stays below `s'`. -/
structure IsBelow (s s' : Series) : Prop where
  next_nonneg : ∀ j t, 0 ≤ t → 0 ≤ s.next j t
  next_le : ∀ j t t', 0 ≤ t → t ≤ t' → s.next j t ≤ s'.next j t'
  contribution_le : ∀ j t t', 0 ≤ t → t ≤ t' → s.contribution j t ≤ s'.contribution j t'

section Below

variable {s' : Series} {first' : ℤ} (h : s.IsBelow s') (hfirst : 0 ≤ first)
  (hle : first ≤ first')
include h hfirst hle

theorem IsBelow.term_le (j : ℕ) :
    0 ≤ s.term first j ∧ s.term first j ≤ s'.term first' j := by
  induction j with
  | zero => exact ⟨hfirst, hle⟩
  | succ j ih => exact ⟨h.next_nonneg j _ ih.1, h.next_le j _ _ ih.1 ih.2⟩

/-- Termwise comparison of two series that are summed to their ends. -/
theorem IsBelow.sum_le (hs : s.Settles) (hs' : s'.Settles) {bound bound' : ℕ}
    (hend : s.term first bound = 0) (hend' : s'.term first' bound' = 0) :
    s.sum bound first ≤ s'.sum bound' first' := by
  have hstop := hs.term_eq_zero (le_max_left bound bound') hend
  have hstop' := hs'.term_eq_zero (le_max_right bound bound') hend'
  rw [hs.sum_eq_of_term_eq_zero hend hstop, hs'.sum_eq_of_term_eq_zero hend' hstop']
  refine sum_le_sum fun j _ => ?_
  obtain ⟨hnonneg, hterm⟩ := h.term_le hfirst hle j
  exact h.contribution_le j _ _ hnonneg hterm

end Below

/-! ## Opposite series -/

/-- The terms change sign with the first one, and so do the contributions. -/
structure IsOdd (s : Series) : Prop where
  next_neg : ∀ j t, s.next j (-t) = -s.next j t
  contribution_neg : ∀ j t, s.contribution j (-t) = -s.contribution j t

theorem IsOdd.sumFrom_neg (h : s.IsOdd) (bound j : ℕ) (t : ℤ) :
    s.sumFrom bound j (-t) = -s.sumFrom bound j t := by
  induction bound generalizing j t with
  | zero => rfl
  | succ bound ih =>
    rw [sumFrom, sumFrom, h.next_neg, h.contribution_neg, ih]
    by_cases ht : t = 0
    · simp [ht]
    · rw [if_neg ht, if_neg (neg_ne_zero.2 ht), neg_add]

theorem IsOdd.sum_neg (h : s.IsOdd) (bound : ℕ) (first : ℤ) :
    s.sum bound (-first) = -s.sum bound first :=
  h.sumFrom_neg bound 0 first

end Series

/-! ## Exact series beside integer ones -/

/-- If no term is off by more than `c`, and from the `m`-th on they are off by less and less,
then the sums differ by `c` for each of the first `m` terms and by one for the others. -/
theorem abs_sum_sub_sum_le {f g : ℕ → ℚ} {c a ρ : ℚ} {m N : ℕ} (hhead : ∀ j, |f j - g j| ≤ c)
    (htail : ∀ i, |f (m + i) - g (m + i)| ≤ a * ρ ^ i) (ha : a ≤ 1 / 2) (hρ : 0 ≤ ρ)
    (hρ' : ρ ≤ 1 / 2) (hN : m ≤ N) :
    |∑ j ∈ range N, f j - ∑ j ∈ range N, g j| ≤ m * c + 1 := by
  obtain ⟨k, rfl⟩ := Nat.exists_eq_add_of_le hN
  have hgeometric : ∑ i ∈ range k, a * ρ ^ i ≤ 1 := by
    have hpow : (0 : ℚ) ≤ (1 / 2) ^ k := by positivity
    calc ∑ i ∈ range k, a * ρ ^ i ≤ ∑ i ∈ range k, 1 / 2 * (1 / 2) ^ i :=
          sum_le_sum fun i _ => by gcongr
      _ = 1 - (1 / 2) ^ k := by
          rw [← mul_sum, geom_sum_eq (by norm_num)]
          ring
      _ ≤ 1 := by linarith
  rw [← sum_sub_distrib]
  calc _ ≤ ∑ j ∈ range (m + k), |f j - g j| := abs_sum_le_sum_abs _ _
    _ ≤ ∑ _j ∈ range m, c + ∑ i ∈ range k, a * ρ ^ i := by
        rw [sum_range_add]
        exact add_le_add (sum_le_sum fun j _ => hhead j) (sum_le_sum fun i _ => htail i)
    _ ≤ m * c + 1 := by
        rw [sum_const, card_range, nsmul_eq_mul]
        exact add_le_add_right hgeometric _

/-- **A series that is summed to its end** stands for the exact sum of the terms `g`, in units of
which there are `u` in one.  If no contribution is off by more than `c` units, and the integer terms
have reached zero where the exact ones become small, then the sum is off by `c` for each term before
that place, and by one unit for all the exact terms after it. -/
theorem Series.Settles.abs_sum_sub_le {s : Series} (h : s.Settles) {first : ℤ} {bound m N : ℕ}
    {g : ℕ → ℚ} {u c a ρ : ℚ} (hu : 0 < u) (hbound : s.term first bound = 0)
    (hzero : s.term first m = 0)
    (hhead : ∀ j, |(s.contribution j (s.term first j) : ℚ) - u * g j| ≤ c)
    (htail : ∀ i, u * |g (m + i)| ≤ a * ρ ^ i) (ha : a ≤ 1 / 2) (hρ : 0 ≤ ρ) (hρ' : ρ ≤ 1 / 2)
    (hN : m ≤ N) :
    |(s.sum bound first : ℚ) - u * ∑ j ∈ range N, g j| ≤ m * c + 1 := by
  rw [h.sum_eq_of_term_eq_zero hbound (h.term_eq_zero hN hzero), Int.cast_sum, mul_sum]
  refine abs_sum_sub_sum_le hhead (fun i => ?_) ha hρ hρ' hN
  rw [h.term_eq_zero (Nat.le_add_right m i) hzero, h.contribution_zero, Int.cast_zero, zero_sub,
    abs_neg, abs_mul, abs_of_pos hu]
  exact htail i

/-- Exact terms that drop to a tenth each time from the `m`-th on, in units of `10 ^ -w`. -/
theorem tenPow_mul_abs_le {g : ℕ → ℚ} {m : ℕ} {a : ℚ} (h : ∀ k, |g (m + k)| ≤ a / 10 ^ k)
    (w i : ℕ) : 10 ^ w * |g (w + m + i)| ≤ a * (1 / 10) ^ i := by
  rw [show w + m + i = m + (w + i) by omega]
  calc 10 ^ w * |g (m + (w + i))| ≤ 10 ^ w * (a / 10 ^ (w + i)) := by
        gcongr
        exact h (w + i)
    _ = a * (1 / 10) ^ i := by
        rw [pow_add, one_div_pow]
        field_simp

/-- What is within a distance of all the later partial sums is within that distance of their
limit. -/
theorem abs_sub_mul_le_of_hasSum {f : ℕ → ℚ} {limit : ℝ} (hf : HasSum (fun j => (f j : ℝ)) limit)
    {v c bound : ℚ} {start : ℕ}
    (h : ∀ N, start ≤ N → |v - c * ∑ j ∈ range N, f j| ≤ bound) :
    |(v : ℝ) - c * limit| ≤ bound := by
  have hlimit : Filter.Tendsto (fun N => |(v : ℝ) - c * ∑ j ∈ range N, (f j : ℝ)|) Filter.atTop
      (nhds |(v : ℝ) - c * limit|) :=
    ((hf.tendsto_sum_nat.const_mul _).const_sub _).abs
  refine le_of_tendsto hlimit (Filter.eventually_atTop.2 ⟨start, fun N hN => ?_⟩)
  exact_mod_cast h N hN

end FixedPoint
end Reckoner

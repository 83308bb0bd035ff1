import Mathlib
import Reckoner.Proofs.Value.Expansion
import Reckoner.Rounding

/-!
# Rounding to the nearest

`IsNearest` says what rounding is for, without saying how: no integer is nearer, and of two that
are equally near it is the even one.  There is only one such integer (`IsNearest.unique`).
Division with remainder on the magnitudes, with the sign put back, gives that integer
(`isNearest_nearest`), also at a number of decimal places (`isNearest_scaled`,
`isNearest_nearestAt`).  It is symmetric around zero (`nearest_neg`).
-/

namespace Reckoner
namespace Rounding

/-- The integer nearest to a rational; of two that are equally near, the even one. -/
structure IsNearest (n : ℤ) (q : ℚ) : Prop where
  abs_sub_le : |(n : ℚ) - q| ≤ 1 / 2
  even_of_tie : |(n : ℚ) - q| = 1 / 2 → Even n

/-- There is only one such integer. -/
theorem IsNearest.unique {m n : ℤ} {q : ℚ} (hm : IsNearest m q) (hn : IsNearest n q) : m = n := by
  obtain ⟨hmlo, hmhi⟩ := abs_le.1 hm.abs_sub_le
  obtain ⟨hnlo, hnhi⟩ := abs_le.1 hn.abs_sub_le
  by_contra hne
  -- two of them are neighbours, each half a unit away, and only one of the two is even
  have hfar : (1 : ℚ) ≤ |(m : ℚ) - n| := by
    exact_mod_cast Int.one_le_abs (sub_ne_zero.2 hne)
  have htie : |(m : ℚ) - q| = 1 / 2 ∧ |(n : ℚ) - q| = 1 / 2 ∧ |(m : ℚ) - n| = 1 := by
    have htriangle : |(m : ℚ) - n| ≤ |(m : ℚ) - q| + |(n : ℚ) - q| := by
      have h := abs_sub ((m : ℚ) - q) (n - q)
      rwa [sub_sub_sub_cancel_right] at h
    have hm' := hm.abs_sub_le
    have hn' := hn.abs_sub_le
    refine ⟨?_, ?_, ?_⟩ <;> linarith
  have heven := (hm.even_of_tie htie.1).sub (hn.even_of_tie htie.2.1)
  have hone : |m - n| = 1 := by exact_mod_cast htie.2.2
  rw [← even_abs, hone] at heven
  exact absurd heven (by decide)

/-- Closer than half a unit there is no tie. -/
theorem IsNearest.of_abs_sub_lt {n : ℤ} {q : ℚ} (h : |(n : ℚ) - q| < 1 / 2) : IsNearest n q :=
  ⟨h.le, fun htie => absurd htie h.ne⟩

theorem isNearest_intCast (n : ℤ) : IsNearest n n := by
  refine .of_abs_sub_lt ?_
  rw [sub_self, abs_zero]
  norm_num

/-- Rounding does not step over an integer from above. -/
theorem IsNearest.le_of_le {n k : ℤ} {q : ℚ} (h : IsNearest n q) (hk : (k : ℚ) ≤ q) : k ≤ n := by
  have hlt : (k : ℚ) < n + 1 := by linarith [(abs_le.1 h.abs_sub_le).1]
  exact Int.lt_add_one_iff.1 (by exact_mod_cast hlt)

/-- Rounding does not step over an integer from below. -/
theorem IsNearest.le_of_ge {n k : ℤ} {q : ℚ} (h : IsNearest n q) (hk : q ≤ k) : n ≤ k := by
  have hlt : (n : ℚ) < k + 1 := by linarith [(abs_le.1 h.abs_sub_le).2]
  exact Int.lt_add_one_iff.1 (by exact_mod_cast hlt)

/-! ## Magnitudes -/

/-- The nearest natural number: the quotient if the remainder is at most half, else one more. -/
theorem nearestNat_cases (num den : ℕ) :
    (nearestNat num den = num / den ∧ 2 * (num % den) ≤ den) ∨
      (nearestNat num den = num / den + 1 ∧ den ≤ 2 * (num % den)) := by
  rw [nearestNat]
  rcases hcompare : compare (2 * (num % den)) den with _ | _ | _
  · exact .inl ⟨rfl, (Nat.compare_eq_lt.1 hcompare).le⟩
  · have heq := Nat.compare_eq_eq.1 hcompare
    rcases Nat.mod_two_eq_zero_or_one (num / den) with hparity | hparity
    · exact .inl ⟨by simp [hparity], heq.le⟩
    · exact .inr ⟨by simp [hparity], heq.ge⟩
  · exact .inr ⟨rfl, (Nat.compare_eq_gt.1 hcompare).le⟩

theorem nearestNat_zero (den : ℕ) : nearestNat 0 den = 0 := by
  rcases nearestNat_cases 0 den with ⟨h, -⟩ | ⟨-, hhalf⟩
  · rwa [Nat.zero_div] at h
  · obtain rfl : den = 0 := by simpa using hhalf
    rfl

/-- The nearest natural number is as far away as the nearer of the two multiples around. -/
theorem abs_sub_nearestNat (num : ℕ) {den : ℕ} (hden : 0 < den) :
    |(num : ℤ) - nearestNat num den * den| =
      min ((num % den : ℕ) : ℤ) (den - (num % den : ℕ)) := by
  have hsplit : (num : ℤ) = (num / den : ℕ) * den + (num % den : ℕ) := by
    exact_mod_cast (Nat.div_add_mod' num den).symm
  have hrest := Nat.mod_lt num hden
  rcases nearestNat_cases num den with ⟨hnearest, hhalf⟩ | ⟨hnearest, hhalf⟩
  · have hdist : (num : ℤ) - nearestNat num den * den = (num % den : ℕ) := by
      rw [hnearest]
      exact sub_eq_of_eq_add' hsplit
    rw [hdist, Nat.abs_cast, min_eq_left (by omega)]
  · have hdist : (num : ℤ) - nearestNat num den * den = -((den : ℤ) - (num % den : ℕ)) := by
      rw [hnearest, Nat.cast_succ, add_one_mul]
      linarith only [hsplit]
    rw [hdist, abs_neg, abs_of_nonneg (by omega), min_eq_right (by omega)]

/-- Of two multiples that are equally near, the even one is taken. -/
theorem even_nearestNat {num den : ℕ} (htie : 2 * (num % den) = den) :
    Even (nearestNat num den) := by
  rw [nearestNat, Nat.compare_eq_eq.2 htie, Nat.even_iff]
  show (num / den + num / den % 2) % 2 = 0
  omega

/-! ## Integers -/

/-- The magnitude is rounded, and the sign put back. -/
theorem nearest_eq_sign_mul (num : ℤ) {den : ℕ} (hden : 0 < den) :
    nearest num den = num.sign * nearestNat num.natAbs den := by
  rw [nearest, Int.natAbs_natCast]
  rcases lt_trichotomy num 0 with hnum | rfl | hnum
  · simp [hnum, Int.sign_eq_neg_one_of_neg hnum]
  · simp [nearestNat_zero]
  · rw [if_pos (iff_of_false (by omega) (by omega)), Int.sign_eq_one_of_pos hnum, one_mul]

/-- Rounding commutes with the change of sign, also for a divisor that is zero or negative. -/
theorem nearest_neg (num den : ℤ) : nearest (-num) den = -nearest num den := by
  rw [nearest, nearest, Int.natAbs_neg]
  obtain rfl | hnum := eq_or_ne num 0
  · simp [nearestNat_zero]
  · have hsign : (-num < 0 ↔ den < 0) ↔ ¬(num < 0 ↔ den < 0) := by omega
    by_cases h : num < 0 ↔ den < 0
    · rw [if_pos h, if_neg (hsign.not.2 (not_not.2 h))]
    · rw [if_neg h, if_pos (hsign.2 h), neg_neg]

theorem abs_sub_nearest (num : ℤ) {den : ℕ} (hden : 0 < den) :
    |num - nearest num den * den| =
      |(num.natAbs : ℤ) - nearestNat num.natAbs den * den| := by
  rw [nearest_eq_sign_mul num hden]
  rcases lt_trichotomy num 0 with hnum | rfl | hnum
  · rw [Int.sign_eq_neg_one_of_neg hnum, Int.ofNat_natAbs_of_nonpos hnum.le, abs_sub_comm]
    ring_nf
  · simp [nearestNat_zero]
  · rw [Int.sign_eq_one_of_pos hnum, one_mul, Int.natAbs_of_nonneg hnum.le]

/-- The nearest integer is at most half a divisor away. -/
theorem two_mul_abs_sub_nearest_le (num : ℤ) {den : ℤ} (hden : 0 < den) :
    2 * |num - nearest num den * den| ≤ den := by
  obtain ⟨d, rfl⟩ := Int.eq_ofNat_of_zero_le hden.le
  have hd : 0 < d := by exact_mod_cast hden
  rw [abs_sub_nearest num hd, abs_sub_nearestNat _ hd]
  omega

/-! ## Rationals -/

theorem abs_eq_natAbs_div (q : ℚ) : |q| = q.num.natAbs / q.den := by
  rw [Rat.abs_def, Rat.divInt_eq_div]
  rfl

/-- A distance from a quotient, in units of the divisor. -/
theorem abs_sub_div_eq (n num : ℤ) {den : ℤ} (hden : 0 < den) :
    |(n : ℚ) - num / den| = |num - n * den| / (den : ℚ) := by
  have hden' : (0 : ℚ) < den := by exact_mod_cast hden
  rw [abs_sub_comm, div_sub' hden'.ne', abs_div, abs_of_pos hden', mul_comm (den : ℚ)]
  push_cast
  rfl

theorem isNearest_nearest (num : ℤ) {den : ℤ} (hden : 0 < den) :
    IsNearest (nearest num den) (num / den) := by
  have hden' : (0 : ℚ) < den := by exact_mod_cast hden
  refine ⟨?_, fun htie => ?_⟩
  · rw [abs_sub_div_eq _ _ hden, div_le_iff₀ hden']
    have h : 2 * (|num - nearest num den * den| : ℚ) ≤ den := by
      exact_mod_cast two_mul_abs_sub_nearest_le num hden
    push_cast at h ⊢
    linarith
  · obtain ⟨d, rfl⟩ := Int.eq_ofNat_of_zero_le hden.le
    have hd : 0 < d := by exact_mod_cast hden
    rw [abs_sub_div_eq _ _ hden, div_eq_iff hden'.ne'] at htie
    have hdist : 2 * |num - nearest num d * d| = (d : ℤ) := by
      have h : 2 * ((|num - nearest num d * d| : ℤ) : ℚ) = ((d : ℤ) : ℚ) := by
        rw [htie]
        ring
      exact_mod_cast h
    rw [abs_sub_nearest num hd, abs_sub_nearestNat _ hd] at hdist
    rw [nearest_eq_sign_mul num hd]
    refine Even.mul_left ?_ _
    exact_mod_cast even_nearestNat (show 2 * (num.natAbs % d) = d by omega)

/-- A rational rounded at a number of places, of which only a word counts. -/
theorem isNearest_scaled (q : ℚ) (places : ℕ) :
    IsNearest (nearest (q.num * wordTenPow places) q.den) (q * 10 ^ toWord places) := by
  have hden : (0 : ℤ) < q.den := by exact_mod_cast q.den_pos
  have hq : ((q.num * wordTenPow places : ℤ) : ℚ) / ((q.den : ℤ) : ℚ) =
      q * 10 ^ toWord places := by
    rw [wordTenPow, tenPow_eq]
    push_cast
    rw [mul_div_right_comm, Rat.num_div_den]
  rw [← hq]
  exact isNearest_nearest _ hden

theorem isNearest_nearestNat (num : ℕ) {den : ℕ} (hden : 0 < den) :
    IsNearest (nearestNat num den) (num / den) := by
  have hnearest : nearest num den = nearestNat num den := by
    rw [nearest, if_pos (iff_of_false (Int.not_lt.2 (Int.natCast_nonneg _))
      (Int.not_lt.2 (Int.natCast_nonneg _))), Int.natAbs_natCast, Int.natAbs_natCast]
  have hden' : (0 : ℤ) < den := by exact_mod_cast hden
  have h := isNearest_nearest num hden'
  rwa [hnearest, Int.cast_natCast, Int.cast_natCast] at h

/-- A quotient rounded at a number of places, which may be negative; their magnitude has to be a
word. -/
theorem isNearest_nearestAt (num : ℕ) {den : ℕ} (hden : 0 < den) {places : ℤ}
    (hplaces : places.natAbs < wordCount) :
    IsNearest (nearestAt num den places) (num / den * 10 ^ places) := by
  cases places with
  | ofNat places =>
    have hunit : wordTenPow places = 10 ^ places := wordTenPow_of_lt hplaces
    have h := isNearest_nearestNat (num * 10 ^ places) hden
    rw [Nat.cast_mul, mul_div_right_comm, Nat.cast_pow] at h
    rw [nearestAt, hunit, Int.ofNat_eq_natCast, zpow_natCast]
    exact h
  | negSucc excess =>
    have hunit : wordTenPow (excess + 1) = 10 ^ (excess + 1) := wordTenPow_of_lt hplaces
    have h := isNearest_nearestNat num (Nat.mul_pos hden (tenPow_pos (excess + 1)))
    rw [Nat.cast_mul, ← div_div, tenPow_eq, Nat.cast_pow] at h
    rw [nearestAt, hunit, zpow_negSucc, ← div_eq_mul_inv]
    exact h

end Rounding
end Reckoner

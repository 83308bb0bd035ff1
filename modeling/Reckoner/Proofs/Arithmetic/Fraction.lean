import Mathlib
import Reckoner.Arithmetic
import Reckoner.Proofs.Value.Canonical

/-!
# Euclid's loop gives lowest terms

The factories of quotients reduce fractions by hand: they move a sign, divide by what Euclid's
loop finds and look at the denominator that is left.  A fraction stays the same number in every
step (`Fraction.toRat_ofInts`, `Fraction.reduce_eq`), and coprime terms over a positive
denominator are those of that number (`Fraction.terms_of_coprime`).  So the factories choose the
representation of the rational quotient:

* `quotient_eq`: the canonical value, `Value.ofRat`;
* `ratio_eq`: the value that is no decimal, `Value.ratioOf`.
-/

namespace Reckoner

theorem Euclid.lcm_eq (a b : ℤ) : lcm a b = Int.lcm a b := by
  by_cases hzero : a = 0 ∨ b = 0
  · rw [lcm, if_pos hzero, eq_comm, Int.lcm_eq_zero_iff]
    exact hzero
  · rw [lcm, if_neg hzero, gcd_eq, Int.natAbs_mul, Int.natAbs_tdiv, Int.natAbs_natCast]
    exact Nat.div_mul_right_comm (Nat.gcd_dvd_left _ _) _

namespace Fraction

/-- The number that a fraction is. -/
def toRat (x : Fraction) : ℚ := x.num / x.den

theorem toRat_ofInts {num den : ℤ} (hden : den ≠ 0) :
    (ofInts num den hden).toRat = num / den := by
  rw [toRat, ofInts]
  rcases lt_or_gt_of_ne hden with hneg | hpos
  · rw [if_pos hneg, ← Int.cast_natCast, Int.ofNat_natAbs_of_nonpos hneg.le]
    push_cast
    rw [neg_div_neg_eq]
  · rw [if_neg hpos.not_gt, ← Int.cast_natCast, Int.natAbs_of_nonneg hpos.le]

theorem natAbs_num_ofInts {num den : ℤ} (hden : den ≠ 0) :
    (ofInts num den hden).num.natAbs = num.natAbs := by
  rw [ofInts]
  dsimp only
  split
  · exact Int.natAbs_neg num
  · rfl

/-- Coprime terms over a positive denominator are the terms of the number. -/
theorem terms_of_coprime {x : Fraction} (h : x.num.natAbs.Coprime x.den) :
    x.toRat.num = x.num ∧ x.toRat.den = x.den := by
  have hpos : (0 : ℤ) < x.den := Int.natCast_pos.2 x.den_pos
  have hnum := Rat.num_div_eq_of_coprime hpos h
  have hden := Rat.den_div_eq_of_coprime hpos h
  rw [Int.cast_natCast] at hnum hden
  exact ⟨hnum, Int.natCast_inj.1 hden⟩

/-- Dividing a common factor out of the terms keeps the number. -/
theorem tdiv_div_tdiv {num den g : ℤ} (hg : g ≠ 0) (hnum : g ∣ num) (hden : g ∣ den) :
    ((num.tdiv g : ℤ) / (den.tdiv g : ℤ) : ℚ) = num / den := by
  obtain ⟨n, rfl⟩ := hnum
  obtain ⟨d, rfl⟩ := hden
  rw [Int.mul_tdiv_cancel_left _ hg, Int.mul_tdiv_cancel_left _ hg]
  push_cast
  rw [mul_div_mul_left _ _ (Int.cast_ne_zero.2 hg)]

theorem tdiv_gcd_div_tdiv_gcd (num : ℤ) {den : ℤ} (hden : den ≠ 0) :
    ((num.tdiv (Euclid.gcd num den) : ℤ) / (den.tdiv (Euclid.gcd num den) : ℤ) : ℚ) =
      num / den := by
  have hpos := Euclid.gcd_pos (a := num) hden
  rw [Euclid.gcd_eq] at hpos ⊢
  exact tdiv_div_tdiv (Int.natCast_ne_zero.2 hpos.ne') (Int.gcd_dvd_left num den)
    (Int.gcd_dvd_right num den)

theorem reduce_eq (x : Fraction) : x.reduce = x.toRat := by
  rw [← x.reduce.num_div_den, reduce]
  split
  · rfl
  · have hden : (x.den : ℤ) ≠ 0 := Int.natCast_ne_zero.2 x.den_pos.ne'
    have h := tdiv_gcd_div_tdiv_gcd x.num hden
    rw [← Int.ofNat_tdiv, Int.cast_natCast, Int.cast_natCast] at h
    exact h

end Fraction

namespace Arithmetic

variable {num den : ℤ}

/-- Zero over anything else is zero, which is an integer. -/
theorem ratio_eq (hden : den ≠ 0) : ratio num den = .ok (.ratioOf (num / den)) := by
  rw [ratio, dif_neg hden]
  by_cases hnum : num = 0
  · subst hnum
    rw [if_pos rfl, Int.cast_zero, zero_div]
    rfl
  · rw [if_neg hnum, Fraction.reduce_eq, Fraction.toRat_ofInts]
    rfl

theorem quotient_eq (hden : den ≠ 0) : quotient num den = .ok (.ofRat (num / den)) := by
  rw [quotient, dif_neg hden]
  simp only []
  set x := Fraction.ofInts (num.tdiv (Euclid.gcd num den)) (den.tdiv (Euclid.gcd num den))
    (Euclid.tdiv_gcd_ne_zero hden) with hx
  have hvalue : x.toRat = num / den := by
    rw [hx, Fraction.toRat_ofInts, Fraction.tdiv_gcd_div_tdiv_gcd num hden]
  have hcoprime : x.num.natAbs.Coprime x.den := by
    rw [hx, Fraction.natAbs_num_ofInts]
    exact Euclid.coprime_tdiv_gcd hden
  obtain ⟨hnum', hden'⟩ := Fraction.terms_of_coprime hcoprime
  -- the terms that are left are those of the number, so both look at the same denominator
  rw [← hvalue, Value.ofRat, hnum', hden']
  by_cases hone : x.den = 1
  · rw [if_pos hone, if_pos hone]
  · rw [if_neg hone, if_neg hone]
    cases Expansion.placesFor? x.den with
    | some places => rfl
    | none =>
      have hratio : ratio x.num x.den = .ok (.ratioOf x.toRat) := by
        rw [ratio_eq (Int.natCast_ne_zero.2 x.den_pos.ne'), Int.cast_natCast]
        rfl
      show ratio x.num x.den = .ok (.ratio x.toRat)
      rw [hratio, Value.ratioOf, hden', if_neg hone]

theorem quotient_zero : quotient num 0 = .error .divisionByZero := by
  rw [quotient, dif_pos rfl]

theorem canonical_quotient {v : Value} (h : quotient num den = .ok v) : v.Canonical := by
  by_cases hden : den = 0
  · subst hden
    rw [quotient_zero] at h
    cases h
  · rw [quotient_eq hden] at h
    cases h
    exact Value.canonical_ofRat _

end Arithmetic
end Reckoner

import Mathlib
import Reckoner.FixedPoint.Series
import Reckoner.FixedPoint.Widening
import Reckoner.Proofs.Text.Numeral
import Reckoner.Proofs.Value.Rounding

/-!
# Units of the last place

What the integers of a fixed-point calculation stand for, and what is lost where a quotient
becomes an integer.  The unit at width `w` is `10 ^ -toWord w`, which is `10 ^ -w` as long as the
width is a word of 32 bits; all widths have a unit, so most of what follows needs no bound.

What is lost is at most half a unit in rounding (`abs_ofRat_sub_le`), less than a unit in
truncation (`abs_tdiv_sub_lt`), which besides never makes a magnitude larger (`abs_tdiv_le`).  Read
as a number of units, a truncated quotient is a rational cut off after `w` decimals
(`abs_toRat_tdiv_le`, `abs_toRat_tdiv_sub_le`).  A term that is multiplied by a number of units
passes on its error, multiplied and divided like the term, a share of the error of the factor, and
less than a unit (`abs_tdiv_mul_sub_le`).

Rounding and truncation keep the sign (`ofRat_neg`, `toRat_neg`).  The digits of an integer bound it
from below (`tenPow_le_of_knownDigits`), those before the point of a rational from both sides
(`abs_lt_tenPow_integerDigits`, `tenPow_le_of_integerDigits`).
-/

namespace Reckoner

namespace FixedPoint

/-! ## Truncation -/

theorem abs_tdiv_le (a b : ℤ) : |((a.tdiv b : ℤ) : ℚ)| ≤ |(a : ℚ)| / |(b : ℚ)| := by
  have hnat : ((a.tdiv b).natAbs : ℚ) ≤ (a.natAbs : ℚ) / (b.natAbs : ℚ) := by
    rw [Int.natAbs_tdiv]
    exact Nat.cast_div_le
  simpa only [Nat.cast_natAbs, Int.cast_abs] using hnat

theorem abs_tdiv_sub_lt (a : ℤ) {b : ℤ} (hb : 0 < b) :
    |((a.tdiv b : ℤ) : ℚ) - a / b| < 1 := by
  have hb' : (0 : ℚ) < b := by exact_mod_cast hb
  have hsplit : (a : ℚ) = b * (a.tdiv b : ℤ) + (a.tmod b : ℤ) := by
    exact_mod_cast (Int.mul_tdiv_add_tmod a b).symm
  have hrest : |((a.tmod b : ℤ) : ℚ)| < b := by
    have h : |a.tmod b| < b := abs_lt.2 ⟨Int.lt_tmod_of_pos a hb, Int.tmod_lt_of_pos a hb⟩
    exact_mod_cast h
  have hdiff : ((a.tdiv b : ℤ) : ℚ) - a / b = -((a.tmod b : ℤ) / (b : ℚ)) := by
    rw [hsplit]
    field_simp
    ring
  rw [hdiff, abs_neg, abs_div, abs_of_pos hb', div_lt_one hb']
  exact hrest

/-- A larger quotient does not become smaller by truncation. -/
theorem tdiv_le_tdiv_of_mul_le {a b a' b' : ℤ} (ha : 0 ≤ a) (hb : 0 < b) (hb' : 0 < b')
    (h : a * b' ≤ a' * b) : a.tdiv b ≤ a'.tdiv b' := by
  have ha' : 0 ≤ a' := nonneg_of_mul_nonneg_left ((mul_nonneg ha hb'.le).trans h) hb
  rw [Int.tdiv_eq_ediv_of_nonneg ha, Int.tdiv_eq_ediv_of_nonneg ha', Int.le_ediv_iff_mul_le hb']
  refine le_of_mul_le_mul_right ?_ hb
  calc a / b * b' * b = a / b * b * b' := by ring
    _ ≤ a * b' := Int.mul_le_mul_of_nonneg_right (Int.ediv_mul_le a hb.ne') hb'.le
    _ ≤ a' * b := h

/-- A factor of at most a half makes a magnitude at most half as large. -/
theorem two_mul_natAbs_tdiv_le (t : ℤ) {a b : ℤ} (h : 2 * a.natAbs ≤ b.natAbs) :
    2 * ((t * a).tdiv b).natAbs ≤ t.natAbs := by
  rw [Int.natAbs_tdiv, Int.natAbs_mul]
  calc 2 * (t.natAbs * a.natAbs / b.natAbs) ≤ 2 * (t.natAbs * a.natAbs) / b.natAbs :=
        Nat.mul_div_le_mul_div_assoc 2 _ _
    _ = t.natAbs * (2 * a.natAbs) / b.natAbs := by rw [Nat.mul_left_comm]
    _ ≤ t.natAbs * b.natAbs / b.natAbs := by gcongr
    _ ≤ t.natAbs := Nat.div_le_of_le_mul (Nat.mul_comm _ _).le

/-- A term that is multiplied by `a` units is at most multiplied by what they stand for. -/
theorem abs_tdiv_mul_le (t a s d : ℤ) :
    |(((t * a).tdiv (s * d) : ℤ) : ℚ)| ≤ |(t : ℚ)| * |(a : ℚ) / s| / |(d : ℚ)| := by
  refine (abs_tdiv_le _ _).trans_eq ?_
  push_cast
  rw [abs_mul, abs_mul, abs_div, mul_div_assoc', div_div]

/-- A term `t` stands for `g`, and is multiplied by `a` units where `g` is multiplied by `A`: the
error of the product is that of the term, multiplied and divided like the term, its share of the
error of the factor, and less than a unit from the division. -/
theorem abs_tdiv_mul_sub_le (t a : ℤ) {s d : ℤ} (hs : 0 < s) (hd : 0 < d) (g A : ℚ) :
    |(((t * a).tdiv (s * d) : ℤ) : ℚ) - g * A / d| ≤
      (|(t : ℚ) - g| * |A| + |(t : ℚ)| * |(a : ℚ) / s - A|) / d + 1 := by
  have hs' : (0 : ℚ) < s := by exact_mod_cast hs
  have hd' : (0 : ℚ) < d := by exact_mod_cast hd
  have hcut : |(((t * a).tdiv (s * d) : ℤ) : ℚ) - t * a / (s * d)| ≤ 1 := by
    have h := (abs_tdiv_sub_lt (t * a) (mul_pos hs hd)).le
    push_cast at h
    exact h
  have hsplit : (t : ℚ) * a / (s * d) - g * A / d = ((t - g) * A + t * (a / s - A)) / d := by
    field_simp
    ring
  calc _ ≤ |(((t * a).tdiv (s * d) : ℤ) : ℚ) - t * a / (s * d)| +
          |(t : ℚ) * a / (s * d) - g * A / d| := abs_sub_le _ _ _
    _ ≤ 1 + (|(t : ℚ) - g| * |A| + |(t : ℚ)| * |(a : ℚ) / s - A|) / d := by
      rw [hsplit, abs_div, abs_of_pos hd', ← abs_mul, ← abs_mul]
      gcongr
      exact abs_add_le _ _
    _ = _ := add_comm _ _

/-! ## Units -/

theorem toRat_eq (v : ℤ) (w : ℕ) : toRat v w = v / 10 ^ toWord w := by
  rw [toRat, Rat.mkRat_eq_div, wordTenPow_eq]
  push_cast
  rfl

theorem div_wordTenPow_eq_toRat (v : ℤ) (w : ℕ) :
    (v : ℚ) / ((wordTenPow w : ℕ) : ℤ) = toRat v w := by
  rw [toRat_eq, wordTenPow_eq]
  push_cast
  rfl

theorem abs_toRat_le {v : ℤ} {w : ℕ} {c : ℚ} (h : |(v : ℚ)| ≤ c * 10 ^ toWord w) :
    |toRat v w| ≤ c := by
  have hunit : (0 : ℚ) < 10 ^ toWord w := by positivity
  rwa [toRat_eq, abs_div, abs_of_pos hunit, div_le_iff₀ hunit]

section

variable {a b : ℤ} {w : ℕ} {c : ℚ} (hc : (a : ℚ) / b = 10 ^ toWord w * c)
include hc

/-- A quotient of `c` in units of `10 ^ -w` stands for no more than `c` once it is truncated. -/
theorem abs_toRat_tdiv_le : |toRat (a.tdiv b) w| ≤ |c| := by
  have hunit : (0 : ℚ) < 10 ^ toWord w := by positivity
  have h := abs_tdiv_le a b
  rw [← abs_div, hc, abs_mul, abs_of_pos hunit, mul_comm] at h
  exact abs_toRat_le h

/-- It is off by less than a unit. -/
theorem abs_toRat_tdiv_sub_le (hb : 0 < b) : |toRat (a.tdiv b) w - c| ≤ 1 / 10 ^ toWord w := by
  have hunit : (0 : ℚ) < 10 ^ toWord w := by positivity
  have h := (abs_tdiv_sub_lt a hb).le
  rw [hc] at h
  rw [toRat_eq, div_sub' hunit.ne', abs_div, abs_of_pos hunit]
  gcongr

end

theorem abs_ofRat_sub_le (x : ℚ) (w : ℕ) : |(ofRat x w : ℚ) - x * 10 ^ toWord w| ≤ 1 / 2 :=
  (Rounding.isNearest_scaled x w).abs_sub_le

theorem abs_ofRat_sub_mul_le (x : ℚ) (w : ℕ) : |(ofRat x w : ℝ) - 10 ^ toWord w * x| ≤ 1 / 2 := by
  have h : ((|ofRat x w - x * 10 ^ toWord w| : ℚ) : ℝ) ≤ (1 / 2 : ℚ) :=
    Rat.cast_le.2 (abs_ofRat_sub_le x w)
  push_cast at h
  rwa [mul_comm] at h

/-! ## Opposite numbers -/

theorem ofRat_neg (x : ℚ) (w : ℕ) : ofRat (-x) w = -ofRat x w := by
  rw [ofRat, ofRat, Rat.neg_num, Rat.neg_den, Int.neg_mul, Rounding.nearest_neg]

theorem toRat_neg (v : ℤ) (w : ℕ) : toRat (-v) w = -toRat v w := by
  rw [toRat, toRat, Rat.neg_mkRat]

theorem halvings_neg (t : ℤ) : halvings (-t) = halvings t := by
  rw [halvings, halvings, Int.natAbs_neg]

theorem integerDigits_neg (x : ℚ) : integerDigits (-x) = integerDigits x := by
  rw [integerDigits, integerDigits, Rat.neg_num, Rat.neg_den, Int.natAbs_neg]

theorem knownDigits_neg (v : ℤ) : knownDigits (-v) = knownDigits v := by
  simp only [knownDigits, neg_eq_zero, Int.natAbs_neg]

/-! ## Digits -/

/-- A magnitude has no more digits before the point than are counted. -/
theorem abs_lt_tenPow_integerDigits (x : ℚ) : |x| < 10 ^ integerDigits x := by
  have hden : (0 : ℚ) < x.den := by exact_mod_cast x.den_pos
  have hfloor : |x| < (x.num.natAbs / x.den + 1 : ℕ) := by
    have hnum : (x.num.natAbs : ℚ) < (x.den * (x.num.natAbs / x.den + 1) : ℕ) := by
      exact_mod_cast Nat.lt_mul_div_succ x.num.natAbs x.den_pos
    rw [Rounding.abs_eq_natAbs_div, div_lt_iff₀ hden, mul_comm]
    exact_mod_cast hnum
  have hdigits : x.num.natAbs / x.den + 1 ≤ 10 ^ integerDigits x := by
    rw [integerDigits]
    split
    · rename_i hzero
      rw [hzero]
      exact le_rfl
    · exact Numeral.lt_tenPow_digitCount _
  exact hfloor.trans_le (by exact_mod_cast hdigits)

/-- A magnitude has as many digits before the point as are counted. -/
theorem tenPow_le_of_integerDigits {x : ℚ} {n : ℕ} (h : n + 1 ≤ integerDigits x) :
    (10 : ℚ) ^ n ≤ |x| := by
  rw [integerDigits] at h
  split at h
  · omega
  · rename_i hwhole
    have hdigits : 10 ^ n ≤ x.num.natAbs / x.den :=
      (Nat.pow_le_pow_right (by norm_num) (Nat.le_sub_one_of_lt h)).trans
        (Numeral.tenPow_digitCount_le (Nat.pos_of_ne_zero hwhole))
    rw [Rounding.abs_eq_natAbs_div]
    calc (10 : ℚ) ^ n ≤ (x.num.natAbs / x.den : ℕ) := by exact_mod_cast hdigits
      _ ≤ x.num.natAbs / x.den := Nat.cast_div_le

theorem tenPow_le_of_knownDigits {v : ℤ} {n : ℕ} (h : n + 1 ≤ knownDigits v) :
    (10 : ℚ) ^ n ≤ |(v : ℚ)| := by
  rw [knownDigits] at h
  split at h
  · omega
  · rename_i hv
    have hdigits : 10 ^ n ≤ v.natAbs :=
      (Nat.pow_le_pow_right (by norm_num) (Nat.le_sub_one_of_lt h)).trans
        (Numeral.tenPow_digitCount_le (Int.natAbs_pos.2 hv))
    rw [← Int.cast_abs, ← Nat.cast_natAbs]
    exact_mod_cast hdigits

end FixedPoint
end Reckoner

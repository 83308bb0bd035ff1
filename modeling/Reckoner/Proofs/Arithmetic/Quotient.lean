import Mathlib
import Reckoner.Proofs.Arithmetic.Fraction

/-!
# The representation of a quotient

Which of its three representations a canonical value has can be read off the denominator of the
number in lowest terms: an integer has denominator one (`Canonical.isInteger_iff`), a decimal has
one that divides a power of ten, and its scale is the least such power
(`Canonical.isDecimal_iff`, `Canonical.isLeast_scale`); all other numbers are ratios
(`Canonical.isRatio_iff`).  Which powers of ten a denominator divides is decided by its twos and
fives (`two_pow_mul_five_pow_dvd_iff`, `exists_dvd_tenPow_iff`).

`quotient_written` says all this of a quotient of integers, in terms of the two integers.
-/

namespace Reckoner

/-! ## Divisors of powers of ten -/

theorem two_pow_mul_five_pow_dvd_iff (twos fives k : ℕ) :
    2 ^ twos * 5 ^ fives ∣ tenPow k ↔ max twos fives ≤ k := by
  have hcross (j i : ℕ) : Nat.Coprime (2 ^ j) (5 ^ i) := Nat.Coprime.pow _ _ (by decide)
  rw [tenPow_eq, show (10 : ℕ) = 2 * 5 from rfl, mul_pow, max_le_iff]
  constructor
  · intro h
    have htwo : 2 ^ twos ∣ 2 ^ k :=
      (hcross twos k).dvd_of_dvd_mul_right ((Dvd.intro _ rfl).trans h)
    have hfive : 5 ^ fives ∣ 5 ^ k :=
      (hcross k fives).symm.dvd_of_dvd_mul_left ((Dvd.intro_left _ rfl).trans h)
    exact ⟨(Nat.pow_dvd_pow_iff_le_right (by decide)).1 htwo,
      (Nat.pow_dvd_pow_iff_le_right (by decide)).1 hfive⟩
  · rintro ⟨htwo, hfive⟩
    exact Nat.mul_dvd_mul (pow_dvd_pow 2 htwo) (pow_dvd_pow 5 hfive)

/-- The divisors of powers of ten are the products of a power of two and a power of five. -/
theorem exists_dvd_tenPow_iff (n : ℕ) :
    (∃ k, n ∣ tenPow k) ↔ ∃ twos fives, n = 2 ^ twos * 5 ^ fives := by
  constructor
  · rintro ⟨k, h⟩
    rw [tenPow_eq, show (10 : ℕ) = 2 * 5 from rfl, mul_pow, Nat.dvd_mul] at h
    obtain ⟨a, b, ha, hb, rfl⟩ := h
    obtain ⟨twos, -, rfl⟩ := (Nat.dvd_prime_pow Nat.prime_two).1 ha
    obtain ⟨fives, -, rfl⟩ := (Nat.dvd_prime_pow Nat.prime_five).1 hb
    exact ⟨twos, fives, rfl⟩
  · rintro ⟨twos, fives, rfl⟩
    exact ⟨_, (two_pow_mul_five_pow_dvd_iff twos fives _).2 le_rfl⟩

theorem Expansion.placesFor?_eq_none_iff (den : ℕ) :
    placesFor? den = none ↔ ∀ k, ¬ den ∣ tenPow k := by
  constructor
  · exact not_dvd_tenPow_of_placesFor?
  · intro h
    by_contra hsome
    obtain ⟨places, hplaces⟩ := Option.ne_none_iff_exists'.1 hsome
    exact h places (dvd_tenPow_of_placesFor? hplaces)

/-! ## The denominator decides -/

/-- A number is some integer over `10 ^ k` if that power clears its denominator. -/
theorem Decimal.exists_toRat_eq {q : ℚ} {k : ℕ} (h : q.den ∣ tenPow k) :
    ∃ m : ℤ, (⟨m, k⟩ : Decimal).toRat = q := by
  obtain ⟨j, hj⟩ := h
  have hten : (10 : ℚ) ^ k = q.den * j := by exact_mod_cast hj
  have hnum : q * q.den = q.num := Rat.mul_den_eq_num q
  refine ⟨q.num * j, ?_⟩
  rw [toRat_eq_div, div_eq_iff (by positivity)]
  push_cast
  rw [hten, ← hnum, mul_assoc]

namespace Value

variable {v : Value}

theorem Canonical.isInteger_iff (h : v.Canonical) :
    (∃ n, v = integer n) ↔ v.toRat.den = 1 := by
  constructor
  · rintro ⟨n, rfl⟩
    exact Rat.den_intCast n
  · exact fun hden => ⟨_, h.eq_integer (Rat.coe_int_num_of_den_eq_one hden).symm⟩

theorem Canonical.isRatio_iff (h : v.Canonical) :
    (∃ q, v = ratio q) ↔ ∀ k, ¬ v.toRat.den ∣ tenPow k := by
  cases v with
  | integer n => exact iff_of_false (by simp) fun hnone => hnone 0 (by simp [toRat])
  | decimal d => exact iff_of_false (by simp) fun hnone => hnone d.scale d.den_toRat_dvd
  | ratio q => exact iff_of_true ⟨q, rfl⟩ h

theorem Canonical.isDecimal_iff (h : v.Canonical) :
    (∃ d, v = decimal d) ↔ v.toRat.den ≠ 1 ∧ ∃ k, v.toRat.den ∣ tenPow k := by
  have hinteger := h.isInteger_iff
  have hratio := h.isRatio_iff
  cases v with
  | integer n => exact iff_of_false (by simp) fun hboth => hboth.1 (hinteger.1 ⟨n, rfl⟩)
  | decimal d =>
    refine iff_of_true ⟨d, rfl⟩ ⟨fun hden => ?_, d.scale, d.den_toRat_dvd⟩
    obtain ⟨n, hn⟩ := hinteger.2 hden
    cases hn
  | ratio q => exact iff_of_false (by simp) fun ⟨_, k, hk⟩ => hratio.1 ⟨q, rfl⟩ k hk

/-- A canonical decimal has no more places than its number takes. -/
theorem Canonical.isLeast_scale {d : Decimal} (h : (decimal d).Canonical) :
    IsLeast {k | d.toRat.den ∣ tenPow k} d.scale := by
  refine ⟨d.den_toRat_dvd, fun k hk => ?_⟩
  obtain ⟨m, hm⟩ := Decimal.exists_toRat_eq hk
  exact Decimal.IsNormal.scale_le h hm.symm

end Value

/-! ## Quotients -/

namespace Arithmetic

/-- The denominator of a quotient in lowest terms. -/
def reducedDenominator (num den : ℤ) : ℕ := den.natAbs / Int.gcd num den

/-- A value is the quotient of two integers in canonical form, and how it is written can be told
from the integers. -/
structure Written (num den : ℤ) (v : Value) : Prop where
  canonical : v.Canonical
  toRat : v.toRat = num / den
  unique : ∀ w : Value, w.Canonical → w.toRat = num / den → w = v
  integer : (∃ n, v = .integer n) ↔ den ∣ num
  decimal : (∃ d, v = .decimal d) ↔
    ¬ den ∣ num ∧ ∃ twos fives, reducedDenominator num den = 2 ^ twos * 5 ^ fives
  scale : ∀ d, v = .decimal d → IsLeast {k | den ∣ 10 ^ k * num} d.scale ∧
    ∀ twos fives, reducedDenominator num den = 2 ^ twos * 5 ^ fives → d.scale = max twos fives
  lowest : ∀ q, v = .ratio q →
    0 < q.den ∧ Nat.Coprime q.num.natAbs q.den ∧ q.num * den = num * q.den
  periodic : Expansion.isPeriodic num den = true ↔ ∃ q, v = .ratio q

variable {num den : ℤ}

theorem den_div_eq (hden : den ≠ 0) :
    (num / den : ℚ).den = reducedDenominator num den := by
  rw [← Rat.divInt_eq_div, Rat.den_divInt, if_neg hden, reducedDenominator, Int.gcd_comm]

/-- A power of ten clears a denominator if it clears what is left of it in lowest terms. -/
theorem dvd_tenPow_mul_iff (hden : den ≠ 0) (k : ℕ) :
    den ∣ 10 ^ k * num ↔ reducedDenominator num den ∣ tenPow k := by
  have hden' : (den : ℚ) ≠ 0 := Int.cast_ne_zero.2 hden
  rw [← den_div_eq hden]
  constructor
  · rintro ⟨m, hm⟩
    have hm' : (10 : ℚ) ^ k * num = den * m := by exact_mod_cast hm
    have hdecimal : (⟨m, k⟩ : Decimal).toRat = num / den := by
      rw [Decimal.toRat_eq_div, div_eq_div_iff (by positivity) hden', mul_comm, ← hm', mul_comm]
    exact hdecimal ▸ Decimal.den_toRat_dvd ⟨m, k⟩
  · intro h
    obtain ⟨m, hm⟩ := Decimal.exists_toRat_eq h
    rw [Decimal.toRat_eq_div, div_eq_div_iff (by positivity) hden'] at hm
    refine ⟨m, ?_⟩
    have hm' : m * den = num * 10 ^ k := by exact_mod_cast hm
    rw [mul_comm, ← hm', mul_comm]

theorem dvd_iff_reducedDenominator (hden : den ≠ 0) :
    den ∣ num ↔ reducedDenominator num den = 1 := by
  have h : den ∣ 10 ^ 0 * num ↔ reducedDenominator num den ∣ tenPow 0 := dvd_tenPow_mul_iff hden 0
  rwa [pow_zero, one_mul, tenPow_zero, Nat.dvd_one] at h

theorem isPeriodic_iff (hden : den ≠ 0) :
    Expansion.isPeriodic num den = true ↔ ∀ k, ¬ reducedDenominator num den ∣ tenPow k := by
  have hgcd : Int.gcd num den ≠ 0 := fun h => hden (Int.gcd_eq_zero_iff.1 h).2
  rw [← Expansion.placesFor?_eq_none_iff, reducedDenominator, Expansion.isPeriodic,
    Euclid.gcd_eq]
  simp [hgcd]

section

variable {v : Value} (hcanonical : v.Canonical) (hden : den ≠ 0) (hv : v.toRat = num / den)

include hden hv in
theorem den_toRat_eq : v.toRat.den = reducedDenominator num den := by rw [hv, den_div_eq hden]

include hcanonical hden hv in
theorem scale_of_decimal {d : Decimal} (hd : v = .decimal d) :
    IsLeast {k | den ∣ 10 ^ k * num} d.scale ∧
      ∀ twos fives, reducedDenominator num den = 2 ^ twos * 5 ^ fives →
        d.scale = max twos fives := by
  subst hd
  have hleast := hcanonical.isLeast_scale
  rw [show d.toRat.den = reducedDenominator num den from den_toRat_eq hden hv] at hleast
  refine ⟨by simpa only [dvd_tenPow_mul_iff hden] using hleast, fun twos fives hfactors => ?_⟩
  -- the powers of ten that clear the denominator are those from `max twos fives` on
  refine hleast.unique ?_
  rw [hfactors]
  simp only [two_pow_mul_five_pow_dvd_iff]
  exact isLeast_Ici

include hden hv in
theorem num_mul_of_ratio {q : ℚ} (hq : v = .ratio q) : q.num * den = num * q.den := by
  subst hq
  have hquotient : q = num / den := hv
  rw [eq_div_iff (Int.cast_ne_zero.2 hden)] at hquotient
  have hcast : (q.num * den : ℚ) = num * q.den := by
    rw [← hquotient, ← Rat.mul_den_eq_num q]
    ring
  exact_mod_cast hcast

include hcanonical hden hv in
theorem written_of_canonical : Written num den v where
  canonical := hcanonical
  toRat := hv
  unique w hw heq := Value.eq_of_toRat_eq hw hcanonical (heq.trans hv.symm)
  integer := by
    rw [hcanonical.isInteger_iff, dvd_iff_reducedDenominator hden, den_toRat_eq hden hv]
  decimal := by
    rw [hcanonical.isDecimal_iff, dvd_iff_reducedDenominator hden, den_toRat_eq hden hv,
      exists_dvd_tenPow_iff]
  scale d := scale_of_decimal hcanonical hden hv
  lowest q hq := ⟨q.den_pos, q.reduced, num_mul_of_ratio hden hv hq⟩
  periodic := by rw [hcanonical.isRatio_iff, isPeriodic_iff hden, den_toRat_eq hden hv]

end

theorem quotient_mul_mul {k : ℤ} (hk : k ≠ 0) (hden : den ≠ 0) :
    quotient (k * num) (k * den) = quotient num den := by
  rw [quotient_eq (mul_ne_zero hk hden), quotient_eq hden]
  push_cast
  rw [mul_div_mul_left _ _ (Int.cast_ne_zero.2 hk)]

theorem quotient_fraction {v : Value} (h : v.Canonical) :
    quotient v.fraction.1 v.fraction.2 = .ok v := by
  rw [quotient_eq (Int.natCast_ne_zero.2 v.fraction_den_pos.ne'), Int.cast_natCast,
    ← v.toRat_eq_div, Value.ofRat_toRat h]

end Arithmetic
end Reckoner

import Mathlib
import Reckoner.Proofs.Value.Expansion
import Reckoner.Value.Canonical

/-!
# One canonical value for each number

The views `toRat` and `fraction` agree (`toRat_eq_div`), and the operations on the
sign act on the number (`toRat_neg`, `sign_eq`, `is_iff`), as does the comparison
(`compare_eq_cmp`).  The canonical form is a unique name for a number:

* every number has one: `canonical_ofDecimal`, `canonical_ofRat`, with the values
  `toRat_ofDecimal` and `toRat_ofRat`;
* no number has two: `eq_of_toRat_eq`, hence `ofRat_toRat`.

`canonical_ratio_iff` reads the condition on ratios as a prime factor other than
two and five.
-/

namespace Reckoner

/-! ## Decimals as numbers -/

namespace Decimal

theorem toRat_eq_div (d : Decimal) : d.toRat = d.mantissa / 10 ^ d.scale := by
  rw [toRat, Rat.mkRat_eq_div, tenPow_eq]
  push_cast
  rfl

theorem toRat_neg (d : Decimal) : d.neg.toRat = -d.toRat := by
  simp only [toRat_eq_div, neg]
  push_cast
  ring

theorem toRat_add (a b : Decimal) : (a.add b).toRat = a.toRat + b.toRat := by
  have hpow (j : ℕ) : (10 : ℚ) ^ j ≠ 0 := by positivity
  -- a mantissa moved to a larger scale stands for the same number
  have hat (d : Decimal) {s : ℕ} (h : d.scale ≤ s) :
      (d.mantissaAt s : ℚ) / 10 ^ s = d.mantissa / 10 ^ d.scale := by
    rw [div_eq_div_iff (hpow _) (hpow _), mantissaAt, tenPow_eq]
    push_cast
    rw [mul_assoc, ← pow_add, Nat.sub_add_cancel h]
  simp only [toRat_eq_div, add]
  push_cast
  rw [add_div, hat a (le_max_left _ _), hat b (le_max_right _ _)]

/-! ## The scale of a product -/

theorem productScale_comm (s t : Nat) : productScale s t = productScale t s := by
  rw [productScale, productScale, Nat.add_comm]
  exact if_congr and_comm rfl rfl

/-- Nothing is lost of a sum that is a word. -/
theorem productScale_of_lt {s t : Nat} (h : s + t < wordCount) :
    productScale s t = s + t := by
  rw [productScale, toWord_of_lt h, ite_self]

/-- A factor without decimals loses nothing. -/
@[simp] theorem productScale_zero_left (s : Nat) : productScale 0 s = s := by
  rw [productScale, Nat.zero_add]
  by_cases hs : s < wordCount
  · rw [toWord_of_lt hs, ite_self]
  · rw [if_neg fun h => hs h.2]

@[simp] theorem productScale_zero_right (s : Nat) : productScale s 0 = s := by
  rw [productScale_comm, productScale_zero_left]

theorem toRat_mul {a b : Decimal} (h : productScale a.scale b.scale = a.scale + b.scale) :
    (a.mul b).toRat = a.toRat * b.toRat := by
  simp only [toRat_eq_div, mul, h]
  push_cast
  rw [pow_add, div_mul_div_comm]

/-- A scale that does not fit is short of the size of a word. -/
theorem toRat_mul_of_ge {a b : Decimal} (ha : a.scale < wordCount)
    (hb : b.scale < wordCount) (h : wordCount ≤ a.scale + b.scale) :
    (a.mul b).toRat = a.toRat * b.toRat * 10 ^ wordCount := by
  have hscale : productScale a.scale b.scale + wordCount = a.scale + b.scale := by
    rw [productScale, if_pos ⟨ha, hb⟩, toWord, Nat.mod_eq_sub_mod h, Nat.mod_eq_of_lt (by omega),
      Nat.sub_add_cancel h]
  have hpow (j : ℕ) : (10 : ℚ) ^ j ≠ 0 := by positivity
  rw [toRat_eq_div, toRat_eq_div, toRat_eq_div, div_mul_div_comm, ← pow_add, ← hscale, pow_add,
    ← div_div, div_mul_cancel₀ _ (hpow _), mul]
  push_cast
  rfl

protected theorem mul_comm (a b : Decimal) : a.mul b = b.mul a := by
  rw [mul, mul, Int.mul_comm, productScale_comm]

/-! ## Trailing zeros -/

theorem toRat_stripZeros (m : Int) (s : Nat) :
    (stripZeros m s).toRat = (⟨m, s⟩ : Decimal).toRat := by
  induction s generalizing m with
  | zero => rfl
  | succ s ih =>
    rw [stripZeros]
    split
    · rename_i hmod
      have hm : (m : ℚ) = 10 * (m / 10 : Int) := by
        exact_mod_cast (Int.mul_ediv_cancel' (Int.dvd_of_emod_eq_zero hmod)).symm
      rw [ih, toRat_eq_div, toRat_eq_div]
      simp only
      rw [hm, pow_succ', mul_div_mul_left _ _ (by norm_num)]
    · rfl

/-- Stripping stops for one of two reasons: no place is left, or the last digit is
not a zero. -/
theorem stripZeros_scale_or (m : Int) (s : Nat) :
    (stripZeros m s).scale = 0 ∨ (stripZeros m s).mantissa % 10 ≠ 0 := by
  induction s generalizing m with
  | zero => exact Or.inl rfl
  | succ s ih =>
    rw [stripZeros]
    split
    · exact ih _
    · rename_i hmod
      exact Or.inr hmod

theorem toRat_normalize (d : Decimal) : d.normalize.toRat = d.toRat := by
  rw [normalize]
  split
  · rename_i hm
    simp [toRat_eq_div, hm]
  · exact toRat_stripZeros _ _

/-- A number has no decimal with fewer places than its normal one. -/
theorem IsNormal.scale_le {d d' : Decimal} (h : d.IsNormal) (heq : d.toRat = d'.toRat) :
    d.scale ≤ d'.scale := by
  by_contra hlt
  obtain ⟨t, ht⟩ : ∃ t, d.scale = d'.scale + (t + 1) := ⟨d.scale - d'.scale - 1, by omega⟩
  have hpow (j : ℕ) : (10 : ℚ) ^ j ≠ 0 := by positivity
  rw [toRat_eq_div, toRat_eq_div, div_eq_div_iff (hpow _) (hpow _), ht, pow_add,
    mul_left_comm, mul_comm (d.mantissa : ℚ), mul_right_inj' (hpow _)] at heq
  have hm : d.mantissa = d'.mantissa * 10 ^ (t + 1) := by exact_mod_cast heq
  refine h.2 (Int.emod_eq_zero_of_dvd ?_)
  rw [hm, pow_succ]
  exact (Dvd.intro_left _ rfl).mul_left _

/-- Normal decimals of one number are the same. -/
theorem IsNormal.eq_of_toRat_eq {d d' : Decimal} (h : d.IsNormal) (h' : d'.IsNormal)
    (heq : d.toRat = d'.toRat) : d = d' := by
  have hs : d.scale = d'.scale := le_antisymm (h.scale_le heq) (h'.scale_le heq.symm)
  have hpow : (10 : ℚ) ^ d'.scale ≠ 0 := by positivity
  rw [toRat_eq_div, toRat_eq_div, hs, div_left_inj' hpow] at heq
  obtain ⟨m, s⟩ := d
  obtain ⟨m', s'⟩ := d'
  simp only at hs heq
  rw [hs, Int.cast_inj.1 heq]

/-- The denominator of a decimal divides the power of ten it is written over. -/
theorem den_toRat_dvd (d : Decimal) : d.toRat.den ∣ tenPow d.scale := by
  have h := Rat.den_dvd d.mantissa (tenPow d.scale)
  rw [← Rat.mkRat_eq_divInt] at h
  exact_mod_cast h

end Decimal

namespace Value

/-! ## Values as numbers -/

theorem toRat_eq_div (v : Value) : v.toRat = v.fraction.1 / v.fraction.2 := by
  cases v with
  | integer n => simp [toRat, fraction]
  | decimal d => rw [toRat, fraction, Decimal.toRat, Rat.mkRat_eq_div]
  | ratio q => exact (Rat.num_div_den q).symm

theorem fraction_den_ne_zero (v : Value) : (v.fraction.2 : ℚ) ≠ 0 :=
  Nat.cast_ne_zero.2 v.fraction_den_pos.ne'

@[simp] theorem toRat_neg (v : Value) : (-v).toRat = -v.toRat := by
  cases v with
  | integer n => exact Int.cast_neg n
  | decimal d => exact d.toRat_neg
  | ratio q => rfl

@[simp] theorem toRat_zero : (0 : Value).toRat = 0 := rfl

@[simp] theorem toRat_one : (1 : Value).toRat = 1 := rfl

/-- A value is a landmark if it is that number. -/
theorem is_iff (v : Value) (l : Landmark) : v.is l = true ↔ v.toRat = l.toInt := by
  rw [is, beq_iff_eq, toRat_eq_div, div_eq_iff v.fraction_den_ne_zero]
  exact_mod_cast Iff.rfl

theorem is_zero_iff (v : Value) : v.is .zero = true ↔ v.toRat = 0 := by
  rw [is_iff, Landmark.toInt, Int.cast_zero]

theorem is_one_iff (v : Value) : v.is .one = true ↔ v.toRat = 1 := by
  rw [is_iff, Landmark.toInt, Int.cast_one]

theorem is_minusOne_iff (v : Value) : v.is .minusOne = true ↔ v.toRat = -1 := by
  rw [is_iff, Landmark.toInt, Int.cast_neg, Int.cast_one]

theorem isZero_iff (v : Value) : v.isZero = true ↔ v.toRat = 0 := v.is_zero_iff

/-! ## Values in order -/

/-- The sign of a value is that of the number. -/
theorem sign_eq (v : Value) : v.sign = SignType.sign v.toRat := by
  have hden : (0 : ℚ) < v.fraction.2 := Nat.cast_pos.2 v.fraction_den_pos
  rw [sign, Int.sign_eq_sign, toRat_eq_div, div_eq_mul_inv, sign_mul, sign_pos (inv_pos.2 hden),
    mul_one, sign_intCast]

theorem toRat_lt_of_sign_lt {a b : Value} (h : a.sign < b.sign) : a.toRat < b.toRat := by
  have hcast : ∀ s t : SignType, s ≤ t → (s : ℤ) ≤ t := by decide
  rw [sign_eq, sign_eq] at h
  by_contra hle
  exact absurd h (not_lt.2 (hcast _ _ (SignType.sign.monotone (not_lt.1 hle))))

/-- Cross multiplication compares the numbers. -/
theorem compare_cross (a b : Value) :
    Ord.compare (a.fraction.1 * b.fraction.2) (b.fraction.1 * a.fraction.2) =
      cmp a.toRat b.toRat := by
  have ha : (0 : ℚ) < a.fraction.2 := Nat.cast_pos.2 a.fraction_den_pos
  have hb : (0 : ℚ) < b.fraction.2 := Nat.cast_pos.2 b.fraction_den_pos
  have hleft : (a.fraction.1 * b.fraction.2 : ℤ) = a.toRat * (a.fraction.2 * b.fraction.2) := by
    rw [toRat_eq_div]
    push_cast
    field_simp
  have hright : (b.fraction.1 * a.fraction.2 : ℤ) = b.toRat * (a.fraction.2 * b.fraction.2) := by
    rw [toRat_eq_div b]
    push_cast
    field_simp
  rw [← cmp_eq_compare, ← (Int.cast_strictMono (R := ℚ)).cmp_map_eq, hleft, hright,
    cmp_mul_pos_right (mul_pos ha hb)]

/-- Values are compared as the numbers that they are: where the signs differ they decide as the
numbers do. -/
theorem compare_eq_cmp (a b : Value) : a.compare b = cmp a.toRat b.toRat := by
  rw [compare, compare_cross]
  rcases lt_trichotomy a.sign b.sign with hlt | heq | hgt
  · rw [compare_lt_iff_lt.2 hlt, (cmp_eq_lt_iff _ _).2 (toRat_lt_of_sign_lt hlt)]
    rfl
  · rw [compare_eq_iff_eq.2 heq]
    rfl
  · rw [compare_gt_iff_gt.2 hgt, (cmp_eq_gt_iff _ _).2 (toRat_lt_of_sign_lt hgt)]
    rfl

theorem equals_iff (a b : Value) : a.equals b = true ↔ a.toRat = b.toRat := by
  rw [equals, beq_iff_eq, compare_eq_cmp, cmp_eq_eq_iff]

/-! ## Every number has a canonical value -/

theorem canonical_ofDecimal (d : Decimal) : (ofDecimal d).Canonical := by
  rw [ofDecimal]
  split
  · trivial
  · rename_i hscale
    rw [Decimal.normalize] at hscale ⊢
    split at hscale
    · exact absurd rfl hscale
    · rename_i hm
      rw [if_neg hm]
      exact ⟨Nat.pos_of_ne_zero hscale, (Decimal.stripZeros_scale_or _ _).resolve_left hscale⟩

theorem toRat_ofDecimal (d : Decimal) : (ofDecimal d).toRat = d.toRat := by
  rw [ofDecimal, ← d.toRat_normalize]
  split
  · rename_i hscale
    rw [toRat, Decimal.toRat_eq_div, hscale, pow_zero, div_one]
  · rfl

theorem toRat_scaled (m : Int) (s : Nat) : (scaled m s).toRat = m / 10 ^ s := by
  rw [scaled, toRat_ofDecimal, Decimal.toRat_eq_div]

/-- An integer where the rational is one, a ratio in lowest terms otherwise. -/
def ratioOf (q : Rat) : Value := if q.den = 1 then integer q.num else ratio q

/-- The canonical value of a rational: an integer, a decimal with exactly the places that its
expansion takes, or a ratio if the expansion never ends. -/
def ofRat (q : Rat) : Value :=
  if q.den = 1 then integer q.num
  else
    match Expansion.placesFor? q.den with
    | some places => scaled (q.num * (tenPow places / q.den : Nat)) places
    | none => ratio q

theorem canonical_ofRat (q : Rat) : (ofRat q).Canonical := by
  rw [ofRat]
  split
  · trivial
  · split
    · exact canonical_ofDecimal _
    · rename_i hplaces
      exact Expansion.not_dvd_tenPow_of_placesFor? hplaces

theorem canonical_approximate (q : Rat) (digits : Nat) : (approximate q digits).Canonical :=
  canonical_ofDecimal _

theorem toRat_ofRat (q : Rat) : (ofRat q).toRat = q := by
  rw [ofRat]
  split
  · rename_i hden
    exact Rat.coe_int_num_of_den_eq_one hden
  · split
    · rename_i places hplaces
      obtain ⟨k, hk⟩ := Expansion.dvd_tenPow_of_placesFor? hplaces
      have hden : (q.den : ℚ) ≠ 0 := Nat.cast_ne_zero.2 q.den_ne_zero
      have hten : (10 : ℚ) ^ places = q.den * k := by exact_mod_cast hk
      have hk0 : (k : ℚ) ≠ 0 := by
        intro h
        rw [h, mul_zero] at hten
        exact absurd hten (by positivity)
      rw [hk, Nat.mul_div_cancel_left k q.den_pos, toRat_scaled, hten]
      push_cast
      rw [mul_div_mul_right _ _ hk0, Rat.num_div_den]
    · rfl

/-! ## No number has two -/

/-- A canonical value that is a decimal or a ratio is not an integer. -/
theorem Canonical.eq_integer {v : Value} (h : v.Canonical) {n : Int} (heq : v.toRat = n) :
    v = integer n := by
  cases v with
  | integer m => exact congrArg integer (Int.cast_inj.1 heq)
  | decimal d =>
    have hle : d.scale ≤ (⟨n, 0⟩ : Decimal).scale := Decimal.IsNormal.scale_le h
      (by rw [Decimal.toRat_eq_div ⟨n, 0⟩, pow_zero, div_one]; exact heq)
    exact absurd h.1 (by simpa using hle)
  | ratio q =>
    refine absurd ?_ (h 0)
    rw [show q.den = 1 from (congrArg Rat.den heq).trans (Rat.den_intCast n)]
    exact one_dvd _

/-- The canonical value of a number is unique. -/
theorem eq_of_toRat_eq {a b : Value} (ha : a.Canonical) (hb : b.Canonical)
    (heq : a.toRat = b.toRat) : a = b := by
  cases a with
  | integer n => exact (hb.eq_integer heq.symm).symm
  | decimal d =>
    cases b with
    | integer n => exact ha.eq_integer heq
    | decimal d' => exact congrArg decimal (ha.eq_of_toRat_eq hb heq)
    | ratio q => exact absurd (congrArg Rat.den heq ▸ d.den_toRat_dvd) (hb _)
  | ratio q =>
    cases b with
    | integer n => exact ha.eq_integer heq
    | decimal d => exact absurd (congrArg Rat.den heq.symm ▸ d.den_toRat_dvd) (ha _)
    | ratio q' => exact congrArg ratio heq

/-- Writing the number of a canonical value anew changes nothing. -/
theorem ofRat_toRat {v : Value} (h : v.Canonical) : ofRat v.toRat = v :=
  eq_of_toRat_eq (canonical_ofRat _) h (toRat_ofRat _)

theorem Canonical.neg {v : Value} (h : v.Canonical) : (-v).Canonical := by
  cases v with
  | integer n => trivial
  | decimal d =>
    refine ⟨h.1, ?_⟩
    have hm := h.2
    show (-d.mantissa) % 10 ≠ 0
    omega
  | ratio q => exact h

theorem ofDecimal_neg (d : Decimal) : ofDecimal d.neg = -ofDecimal d := by
  refine eq_of_toRat_eq (canonical_ofDecimal _) (canonical_ofDecimal d).neg ?_
  rw [toRat_neg, toRat_ofDecimal, toRat_ofDecimal, Decimal.toRat_neg]

/-- A ratio is canonical if a prime other than two and five divides its
denominator. -/
theorem canonical_ratio_iff (q : Rat) :
    (ratio q).Canonical ↔ ∃ p, p.Prime ∧ p ∣ q.den ∧ p ≠ 2 ∧ p ≠ 5 := by
  constructor
  · intro h
    obtain ⟨twos, fives, rest, hfact, hno2, hno5, hplaces⟩ :=
      Expansion.placesFor?_spec q.den_pos
    have hrest : rest ≠ 1 := by
      intro h1
      rw [if_pos h1] at hplaces
      exact h _ (Expansion.dvd_tenPow_of_placesFor? hplaces)
    refine ⟨rest.minFac, Nat.minFac_prime hrest, ?_, fun h2 => hno2 ?_, fun h5 => hno5 ?_⟩
    · rw [hfact]
      exact ((Nat.minFac_dvd rest).mul_left _).mul_left _
    · exact h2 ▸ Nat.minFac_dvd rest
    · exact h5 ▸ Nat.minFac_dvd rest
  · rintro ⟨p, hp, hdvd, h2, h5⟩ k hk
    have h10 : p ∣ 2 * 5 := hp.dvd_of_dvd_pow (hdvd.trans hk)
    rcases (Nat.Prime.dvd_mul hp).1 h10 with h | h
    · exact h2 ((Nat.prime_dvd_prime_iff_eq hp Nat.prime_two).1 h)
    · exact h5 ((Nat.prime_dvd_prime_iff_eq hp Nat.prime_five).1 h)

theorem canonical_of_three_dvd {q : Rat} (h : 3 ∣ q.den) : (ratio q).Canonical :=
  (canonical_ratio_iff q).2 ⟨3, Nat.prime_three, h, by norm_num, by norm_num⟩

end Value
end Reckoner

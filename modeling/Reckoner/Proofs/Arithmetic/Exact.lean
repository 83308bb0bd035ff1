import Mathlib
import Reckoner.Proofs.Arithmetic.Fraction

/-!
# The four operations are exact

Fixed-point numbers are added and multiplied on their mantissas, everything else
through fractions, and each way has a normal form of its own to produce.  The
equations `compute_add`, `compute_sub`, `compute_mul` and `compute_div` say that
all of them end in the canonical value of the rational result; `compute_div_zero`
is what is left of division.  A product needs room for its scale, which is the sum
of two words (`ScalesAdd`).  `canonical_compute` adds the powers: whatever comes
out of the full computation of two values is canonical.
-/

namespace Reckoner

/-- The number of decimals on the face of a value. -/
def Value.scale : Value → Nat
  | .decimal d => d.scale
  | _ => 0

namespace Arithmetic

/-! ## Sums and products -/

variable {v : Value} {d : Decimal}

/-- A value on whose face the expansion is finite is the number of that decimal. -/
theorem toRat_of_finite? (h : finite? v = some d) : v.toRat = d.toRat := by
  cases v with
  | integer n =>
    obtain rfl := Option.some.inj h
    rw [Decimal.toRat_eq_div, pow_zero, div_one, Value.toRat]
  | decimal d' =>
    obtain rfl := Option.some.inj h
    rfl
  | ratio q => exact absurd h (by simp [finite?])

theorem scale_of_finite? (h : finite? v = some d) : v.scale = d.scale := by
  cases v with
  | integer n =>
    obtain rfl := Option.some.inj h
    rfl
  | decimal d' =>
    obtain rfl := Option.some.inj h
    rfl
  | ratio q => exact absurd h (by simp [finite?])

/-- A numerator moved to a multiple of its denominator stands for the same number. -/
theorem mul_div_of_dvd {n : ℤ} {d m : ℕ} (hm : m ≠ 0) (h : d ∣ m) :
    (n * (m / d : ℕ) / m : ℚ) = n / d := by
  obtain ⟨k, rfl⟩ := h
  obtain ⟨hd, hk⟩ := mul_ne_zero_iff.1 hm
  rw [Nat.mul_div_cancel_left k (Nat.pos_of_ne_zero hd)]
  push_cast
  exact mul_div_mul_right _ _ (Nat.cast_ne_zero.2 hk)

/-- Fractions are added over a common denominator. -/
theorem add_fractions (a b : Value) :
    (if a.fraction.2 = b.fraction.2 then quotient (a.fraction.1 + b.fraction.1) a.fraction.2
      else
        let d := Euclid.lcm a.fraction.2 b.fraction.2
        quotient
          (a.fraction.1 * (d / a.fraction.2 : ℕ) + b.fraction.1 * (d / b.fraction.2 : ℕ)) d) =
      .ok (.ofRat (a.toRat + b.toRat)) := by
  rw [a.toRat_eq_div, b.toRat_eq_div]
  by_cases hsame : a.fraction.2 = b.fraction.2
  · rw [if_pos hsame, quotient_eq (Int.natCast_ne_zero.2 a.fraction_den_pos.ne'), hsame,
      ← add_div]
    push_cast
    rfl
  · rw [if_neg hsame]
    have hlcm : Nat.lcm a.fraction.2 b.fraction.2 ≠ 0 :=
      Nat.lcm_ne_zero a.fraction_den_pos.ne' b.fraction_den_pos.ne'
    simp only [Euclid.lcm_eq, Int.lcm_natCast_natCast]
    rw [quotient_eq (Int.natCast_ne_zero.2 hlcm), Int.cast_add, Int.cast_mul, Int.cast_mul,
      Int.cast_natCast, Int.cast_natCast, Int.cast_natCast, add_div,
      mul_div_of_dvd hlcm (Nat.dvd_lcm_left _ _), mul_div_of_dvd hlcm (Nat.dvd_lcm_right _ _)]

theorem add_eq_ofRat (a b : Value) : add a b = .ok (.ofRat (a.toRat + b.toRat)) := by
  rw [add]
  split
  · rename_i x y hx hy
    refine congrArg Except.ok
      (Value.eq_of_toRat_eq (Value.canonical_ofDecimal _) (Value.canonical_ofRat _) ?_)
    rw [Value.toRat_ofDecimal, Value.toRat_ofRat, Decimal.toRat_add, toRat_of_finite? hx,
      toRat_of_finite? hy]
  · exact add_fractions a b

/-- Nothing is lost of the scale of the product. -/
def ScalesAdd (a b : Value) : Prop :=
  Decimal.productScale a.scale b.scale = a.scale + b.scale

theorem mul_fractions (a b : Value) :
    quotient (a.fraction.1 * b.fraction.1) (a.fraction.2 * b.fraction.2) =
      .ok (.ofRat (a.toRat * b.toRat)) := by
  have hden : (a.fraction.2 * b.fraction.2 : ℤ) ≠ 0 :=
    mul_ne_zero (Int.natCast_ne_zero.2 a.fraction_den_pos.ne')
      (Int.natCast_ne_zero.2 b.fraction_den_pos.ne')
  rw [quotient_eq hden, a.toRat_eq_div, b.toRat_eq_div, div_mul_div_comm]
  push_cast
  rfl

theorem mul_eq_ofRat {a b : Value} (h : ScalesAdd a b) :
    mul a b = .ok (.ofRat (a.toRat * b.toRat)) := by
  rw [mul]
  split
  · rename_i x y hx hy
    rw [ScalesAdd, scale_of_finite? hx, scale_of_finite? hy] at h
    refine congrArg Except.ok
      (Value.eq_of_toRat_eq (Value.canonical_ofDecimal _) (Value.canonical_ofRat _) ?_)
    rw [Value.toRat_ofDecimal, Value.toRat_ofRat, Decimal.toRat_mul h, toRat_of_finite? hx,
      toRat_of_finite? hy]
  · exact mul_fractions a b

/-- An integer has no scale to add. -/
theorem scalesAdd_integer (n : ℤ) (b : Value) : ScalesAdd (.integer n) b := by
  show Decimal.productScale 0 b.scale = 0 + b.scale
  rw [Decimal.productScale_zero_left, Nat.zero_add]

theorem mul_swap (a b : Value) : mul a b = mul b a := by
  rw [mul, mul]
  cases finite? a with
  | none => cases finite? b <;> simp only [mul_comm]
  | some x =>
    cases finite? b with
    | none => simp only [mul_comm]
    | some y => simp only [x.mul_comm]

theorem exists_mul_eq_ok (a b : Value) : ∃ v, mul a b = .ok v := by
  rw [mul]
  split
  · exact ⟨_, rfl⟩
  · exact ⟨_, mul_fractions a b⟩

/-- Whatever the scales are, what comes out is canonical. -/
theorem canonical_mul {a b v : Value} (h : mul a b = .ok v) : v.Canonical := by
  rw [mul] at h
  split at h
  · cases h
    exact Value.canonical_ofDecimal _
  · exact canonical_quotient h

variable (options : Options) (a b : Value)

theorem compute_add : compute options .add a b = .ok (.ofRat (a.toRat + b.toRat)) :=
  add_eq_ofRat a b

theorem compute_sub : compute options .sub a b = .ok (.ofRat (a.toRat - b.toRat)) := by
  rw [compute, sub, add_eq_ofRat, Value.toRat_neg, sub_eq_add_neg]

variable {a b} in
theorem compute_mul (h : ScalesAdd a b) :
    compute options .mul a b = .ok (.ofRat (a.toRat * b.toRat)) :=
  mul_eq_ofRat h

/-! ## Quotients -/

/-- The denominator of a quotient of two fractions is zero if the divisor is. -/
theorem cross_den_eq_zero_iff : (a.fraction.2 * b.fraction.1 : Int) = 0 ↔ b.toRat = 0 := by
  rw [mul_eq_zero, or_iff_right (Int.natCast_ne_zero.2 a.fraction_den_pos.ne'), b.toRat_eq_div,
    div_eq_zero_iff, or_iff_left b.fraction_den_ne_zero, Int.cast_eq_zero]

theorem div_cross :
    ((a.fraction.1 * b.fraction.2 : ℤ) / (a.fraction.2 * b.fraction.1 : ℤ) : ℚ) =
      a.toRat / b.toRat := by
  rw [a.toRat_eq_div, b.toRat_eq_div, div_div_div_eq]
  push_cast
  rfl

theorem compute_div (hb : b.toRat ≠ 0) :
    compute options .div a b = .ok (.ofRat (a.toRat / b.toRat)) := by
  rw [compute, div, if_neg (by rw [Value.isZero_iff]; exact hb),
    quotient_eq (by rw [Ne, cross_den_eq_zero_iff]; exact hb), div_cross]

theorem compute_div_zero (hb : b.toRat = 0) :
    compute options .div a b =
      if a.toRat = 0 ∧ options.zeroOverZero = .zero then .ok 0 else .error .divisionByZero := by
  rw [compute, div, if_pos (b.isZero_iff.2 hb)]
  refine if_congr ?_ rfl rfl
  rw [Bool.and_eq_true, Value.isZero_iff, beq_iff_eq]

/-! ## Powers -/

variable {options a b}

/-- What the choice of a method already knows is zero or one. -/
theorem canonical_of_choose {v : Value}
    (h : PowerMethod.choose options a b = .ok (.known v)) : v.Canonical := by
  rw [PowerMethod.choose] at h
  split at h
  · cases h
    trivial
  · split at h
    · cases h
      trivial
    · simp only at h
      split at h
      · cases h
      · split at h
        · cases h
        · -- every method chosen after the check of the exponent computes
          cases hcheck : checkExponent options (b.toRat.num.natAbs / b.toRat.den + 1 : Nat) with
          | error f =>
            rw [hcheck] at h
            cases h
          | ok n =>
            rw [hcheck] at h
            simp only [bind, Except.bind] at h
            split at h
            · split at h <;> cases h
            · cases h

theorem canonical_integerPower {base : Rat} {n : Int} {v : Value}
    (h : integerPower options base n = .ok v) : v.Canonical := by
  rw [integerPower] at h
  cases hcheck : checkExponent options n with
  | error f =>
    rw [hcheck] at h
    cases h
  | ok k =>
    rw [hcheck] at h
    simp only [bind, Except.bind] at h
    split at h <;> exact canonical_quotient h

/-- A power is known, an integer power or rounded; each way ends in a canonical
value. -/
theorem canonical_pow {v : Value} (h : pow options a b = .ok v) : v.Canonical := by
  rw [pow] at h
  cases hchoose : PowerMethod.choose options a b with
  | error f =>
    rw [hchoose] at h
    cases h
  | ok method =>
    rw [hchoose] at h
    replace h : method.carryOut options = .ok v := h
    cases method with
    | known w =>
      cases h
      exact canonical_of_choose hchoose
    | integer base n => exact canonical_integerPower h
    | exactRoot base n => exact canonical_integerPower h
    | approximate x y =>
      rw [PowerMethod.carryOut] at h
      cases hpower : FixedPoint.power x y options.precision with
      | error f =>
        rw [hpower] at h
        cases h
      | ok r =>
        rw [hpower] at h
        cases h
        exact Value.canonical_ofDecimal _

/-- The full computation of an operator only ever gives canonical values. -/
theorem canonical_compute {op : Operator} {v : Value} (h : compute options op a b = .ok v) :
    v.Canonical := by
  cases op with
  | add =>
    rw [compute_add] at h
    cases h
    exact Value.canonical_ofRat _
  | sub =>
    rw [compute_sub] at h
    cases h
    exact Value.canonical_ofRat _
  | mul => exact canonical_mul h
  | div =>
    by_cases hb : b.toRat = 0
    · rw [compute_div_zero options a b hb] at h
      split at h
      · cases h
        trivial
      · cases h
    · rw [compute_div options a b hb] at h
      cases h
      exact Value.canonical_ofRat _
  | pow => exact canonical_pow h

/-- The first power of a canonical base is the base, if the limit admits the
exponent one. -/
theorem compute_pow_one (hlimit : 1 ≤ options.limits.exponent) (ha : a.Canonical)
    (ha0 : a.toRat ≠ 0) (hb : b.toRat = 1) : compute options .pow a b = .ok a := by
  have hb0 : b.toRat ≠ 0 := by rw [hb]; norm_num
  have hchoose : PowerMethod.choose options a b = .ok (.integer a.toRat 1) := by
    rw [PowerMethod.choose, if_neg (by rwa [Value.isZero_iff]),
      if_neg (by rwa [Value.isZero_iff]), hb]
    rfl
  have hcheck : checkExponent options 1 = .ok 1 :=
    if_pos ⟨hlimit, by decide⟩
  rw [compute, pow, hchoose]
  show integerPower options a.toRat 1 = .ok a
  rw [integerPower, hcheck]
  show quotient (a.toRat.num ^ 1) (a.toRat.den ^ 1 : ℕ) = .ok a
  rw [pow_one, pow_one, quotient_eq (Int.natCast_ne_zero.2 a.toRat.den_ne_zero),
    Int.cast_natCast, Rat.num_div_den, Value.ofRat_toRat ha]

theorem compute_pow_zero (hb : b.toRat = 0) : compute options .pow a b = .ok 1 := by
  rw [compute, pow, PowerMethod.choose, if_pos (b.isZero_iff.2 hb)]
  rfl

theorem compute_zero_pow (ha : a.toRat = 0) (hb : b.toRat ≠ 0) :
    compute options .pow a b = .ok 0 := by
  rw [compute, pow, PowerMethod.choose, if_neg (by rwa [Value.isZero_iff]),
    if_pos (a.isZero_iff.2 ha)]
  rfl

end Arithmetic
end Reckoner

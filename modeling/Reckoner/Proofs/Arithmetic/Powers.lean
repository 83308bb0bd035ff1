import Mathlib
import Reckoner.Proofs.Arithmetic.Laws
import Reckoner.Proofs.Arithmetic.Root
import Reckoner.Standard

/-!
# Powers

A power with an integer exponent is an integer power (`compute_pow_integer`).  For a fraction the
exponent is checked and then a root is looked for; if there is one, the numerator is the exponent
of an integer power of it, and only otherwise the power is approximated (`compute_pow_fraction`).

* `exact_powers`: whatever has an exact power by these rules gets it, in canonical form;
* `pow_refuses_exponent_iff`: which exponents are too large.  The limit is meant for the exponent,
  but on the way over a root the numerator is measured as well, so `4 ^ 2.5` is refused under a
  limit of four (`pow_refuses_small_exponent`).
-/

namespace Reckoner
namespace Arithmetic

variable {options : Options} {a b : Value}

/-! ## Checking an exponent -/

theorem checkExponent_of_le {n : ℤ}
    (h : n.natAbs ≤ min options.limits.exponent exponentCapacity) :
    checkExponent options n = .ok n.natAbs :=
  if_pos (le_min_iff.1 h)

theorem checkExponent_of_lt {n : ℤ} (h : options.limits.exponent < n.natAbs) :
    checkExponent options n = .error (.arithmetic (.exponentTooLarge n options.limits.exponent)) :=
  if_neg fun hboth => absurd hboth.1 (Nat.not_le.2 h)

/-- An exponent that is not an integer counts as the next larger integer. -/
theorem ceil_abs_eq {y : ℚ} (hy : y.den ≠ 1) :
    ⌈|y|⌉ = ((y.num.natAbs / y.den + 1 : ℕ) : ℤ) := by
  have hdvd : ¬ y.den ∣ y.num.natAbs := fun h =>
    hy (Nat.eq_one_of_dvd_coprimes y.reduced h dvd_rfl)
  have hbelow : y.num.natAbs / y.den * y.den < y.num.natAbs :=
    lt_of_le_of_ne (Nat.div_mul_le_self _ _) fun h => hdvd ⟨_, by rw [mul_comm]; exact h.symm⟩
  have habove : y.num.natAbs < (y.num.natAbs / y.den + 1) * y.den := by
    rw [mul_comm]
    exact Nat.lt_mul_div_succ _ y.den_pos
  have hden : (0 : ℚ) < y.den := Nat.cast_pos.2 y.den_pos
  rw [Rat.abs_def, Rat.divInt_eq_div, Int.ceil_eq_iff]
  generalize y.num.natAbs = n at hbelow habove ⊢
  push_cast
  rw [add_sub_cancel_right, lt_div_iff₀ hden, div_le_iff₀ hden]
  exact ⟨by exact_mod_cast hbelow, by exact_mod_cast habove.le⟩

/-- The powers of the terms are the terms of the power, the other way round for a negative
exponent. -/
theorem integerPower_of_le {base : ℚ} {n : ℤ} (hbase : base ≠ 0)
    (h : n.natAbs ≤ min options.limits.exponent exponentCapacity) :
    integerPower options base n = .ok (.ofRat (base ^ n)) := by
  have hpow (k : ℕ) : ((base.num ^ k : ℤ) / (base.den ^ k : ℕ) : ℚ) = base ^ k := by
    push_cast
    rw [← div_pow, Rat.num_div_den]
  rw [integerPower, checkExponent_of_le h]
  show (if n < 0 then quotient (base.den ^ n.natAbs : ℕ) (base.num ^ n.natAbs)
    else quotient (base.num ^ n.natAbs) (base.den ^ n.natAbs : ℕ)) = _
  by_cases hneg : n < 0
  · rw [if_pos hneg, quotient_eq (pow_ne_zero _ (Rat.num_ne_zero.2 hbase)), Int.cast_natCast,
      ← inv_div, hpow, ← zpow_natCast, Int.ofNat_natAbs_of_nonpos hneg.le, zpow_neg, inv_inv]
  · rw [if_neg hneg, quotient_eq (Int.natCast_ne_zero.2 (pow_ne_zero _ base.den_ne_zero)),
      Int.cast_natCast, hpow, ← zpow_natCast, Int.natAbs_of_nonneg (Int.not_lt.1 hneg)]

/-! ## The ways to a power -/

theorem sign_pos (ha : 0 < a.toRat) : 0 < a.sign := by
  rw [Value.toRat_eq_div, div_pos_iff_of_pos_right (Nat.cast_pos.2 a.fraction_den_pos),
    Int.cast_pos] at ha
  rw [Value.sign, Int.sign_eq_one_of_pos ha]
  exact one_pos

theorem compute_pow_integer (ha : a.toRat ≠ 0) (hb : b.toRat ≠ 0) (hden : b.toRat.den = 1) :
    compute options .pow a b = integerPower options a.toRat b.toRat.num := by
  rw [compute, pow, PowerMethod.choose, if_neg (by rwa [Value.isZero_iff]),
    if_neg (by rwa [Value.isZero_iff])]
  simp only [hden]
  rfl

/-- The root that the denominator of an exponent asks for, if it is looked for and there. -/
def exactRoot? (x y : ℚ) : Option ℚ :=
  if y.den ≤ exactRootLimit then Root.perfectRat? y.den x else none

theorem exactRoot?_eq_some_iff {x y r : ℚ} (hx : 0 ≤ x) :
    exactRoot? x y = some r ↔ y.den ≤ exactRootLimit ∧ 0 ≤ r ∧ r ^ y.den = x := by
  rw [exactRoot?, Option.ite_none_right_eq_some, Root.perfectRat?_eq_some_iff y.den_ne_zero hx]

/-- For a fraction the exponent is checked first, then a root is looked for. -/
theorem compute_pow_fraction (ha : 0 < a.toRat) (hden : b.toRat.den ≠ 1) :
    compute options .pow a b =
      (checkExponent options ⌈|b.toRat|⌉ >>= fun _ =>
        match exactRoot? a.toRat b.toRat with
        | some root => integerPower options root b.toRat.num
        | none => PowerMethod.carryOut options (.approximate a.toRat b.toRat)) := by
  have hb : b.toRat ≠ 0 := fun h => hden (by rw [h]; rfl)
  rw [compute, pow, PowerMethod.choose, if_neg (by rwa [Value.isZero_iff]),
    if_neg (by rw [Value.isZero_iff]; exact ha.ne')]
  simp only [hden, if_false, if_neg (not_lt.2 (sign_pos ha).le), ← ceil_abs_eq hden]
  cases checkExponent options ⌈|b.toRat|⌉ with
  | error f => rfl
  | ok n =>
    rw [exactRoot?]
    by_cases hlimit : b.toRat.den ≤ exactRootLimit
    · simp only [if_pos hlimit]
      cases Root.perfectRat? b.toRat.den a.toRat <;> rfl
    · simp only [if_neg hlimit]
      rfl

/-! ## Exact powers -/

/-- The exponents that can be raised to. -/
def Admits (options : Options) (n : ℤ) : Prop :=
  n.natAbs ≤ min options.limits.exponent exponentCapacity

instance (options : Options) (n : ℤ) : Decidable (Admits options n) :=
  inferInstanceAs (Decidable (_ ≤ _))

theorem yields_pow_integer {n : ℤ} (ha : a.toRat ≠ 0) (hb : b.toRat = n) (hn : n ≠ 0)
    (hadmits : Admits options n) : Yields (compute options .pow a b) (a.toRat ^ n) := by
  have hb0 : b.toRat ≠ 0 := by rw [hb]; exact Int.cast_ne_zero.2 hn
  rw [compute_pow_integer ha hb0 (by rw [hb]; exact Rat.den_intCast n), hb, Rat.num_intCast,
    integerPower_of_le ha hadmits]
  exact yields_ofRat _

theorem yields_pow_root {c : ℚ} {p : ℤ} {q : ℕ} (hc : 0 < c) (hcoprime : p.natAbs.Coprime q)
    (hq : 2 ≤ q) (hlimit : q ≤ exactRootLimit) (hadmits : Admits options p)
    (ha : a.toRat = c ^ q) (hb : b.toRat = p / q) :
    Yields (compute options .pow a b) (c ^ p) := by
  have hnum : b.toRat.num = p := by
    have h := Rat.num_div_eq_of_coprime (a := p) (b := q) (by omega) (by simpa using hcoprime)
    rwa [Int.cast_natCast, ← hb] at h
  have hden : b.toRat.den = q := by
    have h := Rat.den_div_eq_of_coprime (a := p) (b := q) (by omega) (by simpa using hcoprime)
    rw [Int.cast_natCast, ← hb] at h
    exact_mod_cast h
  have hpos : 0 < a.toRat := by rw [ha]; positivity
  have hden1 : b.toRat.den ≠ 1 := by omega
  -- the exponent is at most half of its numerator, rounded up
  have hceil : Admits options ⌈|b.toRat|⌉ := by
    rw [Admits, ceil_abs_eq hden1, hnum, hden, Int.natAbs_natCast]
    refine le_trans ?_ hadmits
    have hp : p.natAbs ≠ 0 := by
      intro h
      rw [h, Nat.coprime_zero_left] at hcoprime
      omega
    have hhalf : p.natAbs / q ≤ p.natAbs / 2 := Nat.div_le_div_left hq (by decide)
    omega
  have hroot : exactRoot? a.toRat b.toRat = some c :=
    (exactRoot?_eq_some_iff hpos.le).2 ⟨by omega, hc.le, by rw [hden, ha]⟩
  rw [compute_pow_fraction hpos hden1, checkExponent_of_le hceil, hroot]
  show Yields (integerPower options c b.toRat.num) (c ^ p)
  rw [hnum, integerPower_of_le hc.ne' hadmits]
  exact yields_ofRat _

/-- The square root of a square, by the standard function. -/
theorem yields_sqrt {c : ℚ} {x : Value} (hc : 0 ≤ c) (hx : x.toRat = c ^ 2) :
    Yields (Standard.sqrt options x) c := by
  have hroot : Root.perfectRat? 2 x.toRat = some c :=
    (Root.perfectRat?_eq_some_iff two_ne_zero (by rw [hx]; positivity)).2 ⟨hc, hx.symm⟩
  rw [Standard.sqrt, hroot]
  show Yields (quotient c.num c.den) c
  rw [quotient_eq (Int.natCast_ne_zero.2 c.den_ne_zero), Int.cast_natCast, Rat.num_div_den]
  exact yields_ofRat c

theorem yields_pow_half {c : ℚ} (hc : 0 ≤ c) (hlimit : 1 ≤ options.limits.exponent)
    (ha : a.toRat = c ^ 2) (hb : b.toRat = 1 / 2) : Yields (compute options .pow a b) c := by
  rcases hc.eq_or_lt with rfl | hpos
  · have ha0 : a.toRat = 0 := by rw [ha]; norm_num
    rw [compute_zero_pow ha0 (by rw [hb]; norm_num)]
    exact ⟨0, rfl, trivial, rfl⟩
  · have hadmits : Admits options 1 := le_min hlimit (by decide)
    rw [← zpow_one c]
    exact yields_pow_root hpos (q := 2) (by decide) le_rfl (by decide) hadmits ha
      (by simpa using hb)

/-- The outcome is the fault that the exponent is too large. -/
def RefusesExponent (options : Options) (o : Outcome) : Prop :=
  ∃ n, o = .error (.arithmetic (.exponentTooLarge n options.limits.exponent))

theorem not_refusesExponent_ok (v : Value) : ¬ RefusesExponent options (.ok v) := by
  rintro ⟨n, h⟩
  cases h

/-- A quotient fails for other reasons. -/
theorem not_refusesExponent_quotient (num den : ℤ) :
    ¬ RefusesExponent options (quotient num den) := by
  by_cases hden : den = 0
  · rw [hden, quotient_zero]
    rintro ⟨n, h⟩
    cases h
  · rw [quotient_eq hden]
    exact not_refusesExponent_ok _

theorem refusesExponent_check_iff (hlimit : options.limits.exponent ≤ exponentCapacity) {n : ℤ}
    {next : ℕ → Outcome} :
    RefusesExponent options (checkExponent options n >>= next) ↔
      options.limits.exponent < n.natAbs ∨
        n.natAbs ≤ options.limits.exponent ∧ RefusesExponent options (next n.natAbs) := by
  rcases Nat.lt_or_ge options.limits.exponent n.natAbs with hlt | hle
  · rw [checkExponent_of_lt hlt]
    exact iff_of_true ⟨n, rfl⟩ (.inl hlt)
  · rw [checkExponent_of_le (le_min hle (hle.trans hlimit))]
    exact ⟨fun h => .inr ⟨hle, h⟩, fun h => (h.resolve_left (Nat.not_lt.2 hle)).2⟩

theorem refusesExponent_integerPower_iff (hlimit : options.limits.exponent ≤ exponentCapacity)
    {base : ℚ} {n : ℤ} :
    RefusesExponent options (integerPower options base n) ↔
      options.limits.exponent < n.natAbs := by
  rw [integerPower, refusesExponent_check_iff hlimit]
  refine or_iff_left fun h => ?_
  have hquotient := h.2
  dsimp only at hquotient
  split at hquotient <;> exact not_refusesExponent_quotient _ _ hquotient

/-- An approximation fails for other reasons. -/
theorem error_of_power {x y : ℚ} {precision : ℕ} {f : Fault}
    (h : FixedPoint.power x y precision = .error f) :
    f = .arithmetic .nonPositiveLogarithm ∨ f = .arithmetic .exponentialOverflow ∨
      f = .arithmetic .crash := by
  rw [FixedPoint.power] at h
  split at h
  · cases h
    exact .inl rfl
  · unfold FixedPoint.expScaled at h
    simp only [] at h
    split at h
    · cases h
      exact .inr (.inr rfl)
    · split at h
      · cases h
        exact .inr (.inl rfl)
      · cases h

theorem not_refusesExponent_approximate (x y : ℚ) :
    ¬ RefusesExponent options (PowerMethod.carryOut options (.approximate x y)) := by
  rintro ⟨n, h⟩
  rw [PowerMethod.carryOut] at h
  cases hpower : FixedPoint.power x y options.precision with
  | ok r =>
    rw [hpower] at h
    cases h
  | error f =>
    rw [hpower] at h
    cases h
    rcases error_of_power hpower with h | h | h <;> cases h

theorem refusesExponent_integer_iff (hlimit : options.limits.exponent ≤ exponentCapacity)
    (ha : a.toRat ≠ 0) (hb : b.toRat ≠ 0) (hden : b.toRat.den = 1) :
    RefusesExponent options (compute options .pow a b) ↔
      options.limits.exponent < b.toRat.num.natAbs := by
  rw [compute_pow_integer ha hb hden, refusesExponent_integerPower_iff hlimit]

theorem refusesExponent_fraction_iff (hlimit : options.limits.exponent ≤ exponentCapacity)
    (ha : 0 < a.toRat) (hden : b.toRat.den ≠ 1) :
    RefusesExponent options (compute options .pow a b) ↔
      (options.limits.exponent : ℤ) < ⌈|b.toRat|⌉ ∨
        (exactRoot? a.toRat b.toRat).isSome ∧ options.limits.exponent < b.toRat.num.natAbs := by
  have hnonneg : 0 ≤ ⌈|b.toRat|⌉ := Int.ceil_nonneg (abs_nonneg _)
  have hceil : (options.limits.exponent : ℤ) < ⌈|b.toRat|⌉ ↔
      options.limits.exponent < ⌈|b.toRat|⌉.natAbs := by omega
  rw [compute_pow_fraction ha hden, refusesExponent_check_iff hlimit, hceil]
  cases exactRoot? a.toRat b.toRat with
  | none => simp [not_refusesExponent_approximate]
  | some root =>
    simp only [refusesExponent_integerPower_iff hlimit, Option.isSome_some, true_and]
    omega

theorem isSome_exactRoot?_iff {x y : ℚ} (hx : 0 ≤ x) :
    (exactRoot? x y).isSome = true ↔ y.den ≤ exactRootLimit ∧ ∃ r : ℚ, r ^ y.den = x := by
  simp only [Option.isSome_iff_exists, exactRoot?_eq_some_iff hx]
  constructor
  · rintro ⟨r, hlimit, -, hr⟩
    exact ⟨hlimit, r, hr⟩
  · rintro ⟨hlimit, r, hr⟩
    exact ⟨|r|, hlimit, abs_nonneg r, by rw [← abs_pow, hr, abs_of_nonneg hx]⟩

/-- **The limit of exponents.**  A power with an admissible base refuses its exponent if the
exponent, rounded up to an integer, is above the limit.  If the base has the root that the
denominator of the exponent asks for, and that root is small enough to be looked for, the
numerator must be within the limit as well. -/
theorem pow_refuses_exponent_iff (hlimit : options.limits.exponent ≤ exponentCapacity)
    (hb : b.toRat ≠ 0) (ha : 0 < a.toRat ∨ a.toRat ≠ 0 ∧ b.toRat.den = 1) :
    RefusesExponent options (compute options .pow a b) ↔
      (options.limits.exponent : ℤ) < ⌈|b.toRat|⌉ ∨
        b.toRat.den ≤ exactRootLimit ∧ (∃ r : ℚ, r ^ b.toRat.den = a.toRat) ∧
          options.limits.exponent < b.toRat.num.natAbs := by
  by_cases hden : b.toRat.den = 1
  · have ha0 : a.toRat ≠ 0 := ha.elim (fun h => h.ne') (·.1)
    have hceil : ⌈|b.toRat|⌉ = b.toRat.num.natAbs := by
      rw [← Rat.coe_int_num_of_den_eq_one hden, ← Int.cast_abs, Int.ceil_intCast, Rat.num_intCast,
        Int.natCast_natAbs]
    rw [refusesExponent_integer_iff hlimit ha0 hb hden, hceil, Nat.cast_lt]
    exact ⟨.inl, fun h => h.elim id (·.2.2)⟩
  · have hpos : 0 < a.toRat := ha.resolve_right fun h => hden h.2
    rw [refusesExponent_fraction_iff hlimit hpos hden, isSome_exactRoot?_iff hpos.le, and_assoc]

/-- `27 ^ (7 / 3)` under a limit of four is refused, because the root three would be raised to
the power seven. -/
theorem pow_refuses_exponent_iff_cube_root :
    let options : Options := { limits := { exponent := 4 } }
    let a : Value := .integer 27
    let b : Value := .ratio (7 / 3)
    options.limits.exponent ≤ exponentCapacity ∧ b.toRat ≠ 0 ∧ 0 < a.toRat ∧
      RefusesExponent options (compute options .pow a b) := by
  intro options a b
  have hlimit : options.limits.exponent ≤ exponentCapacity := by decide
  have hb : b.toRat ≠ 0 := by decide +kernel
  have ha : 0 < a.toRat := by decide
  have hden : b.toRat.den = 3 := by decide +kernel
  have hnum : b.toRat.num = 7 := by decide +kernel
  refine ⟨hlimit, hb, ha, (pow_refuses_exponent_iff hlimit hb (.inl ha)).2 (.inr ⟨?_, ⟨3, ?_⟩, ?_⟩)⟩
  · rw [hden]
    decide
  · rw [hden]
    rfl
  · rw [hnum]
    decide

/-- `4 ^ 2.5` under a limit of four: the exponent is below the limit, but five, its numerator, is
not. -/
theorem pow_refuses_small_exponent :
    let options : Options := { limits := { exponent := 4 } }
    let a : Value := .integer 4
    let b : Value := .decimal ⟨25, 1⟩
    options.limits.exponent ≤ exponentCapacity ∧ b.toRat ≠ 0 ∧ 0 < a.toRat ∧
      compute options .pow a b = .error (.arithmetic (.exponentTooLarge 5 4)) ∧
      ¬ (RefusesExponent options (compute options .pow a b) ↔
        (options.limits.exponent : ℤ) < ⌈|b.toRat|⌉) := by
  intro options a b
  have ha : 0 < a.toRat := by decide
  have hden : b.toRat.den = 2 := by decide +kernel
  have hnum : b.toRat.num = 5 := by decide +kernel
  have hceil : ⌈|b.toRat|⌉ = 3 := by rw [ceil_abs_eq (by rw [hden]; decide), hnum, hden]; rfl
  have hroot : exactRoot? a.toRat b.toRat = some 2 :=
    (exactRoot?_eq_some_iff ha.le).2 ⟨by rw [hden]; decide, by decide, by rw [hden]; rfl⟩
  have hcompute : compute options .pow a b = .error (.arithmetic (.exponentTooLarge 5 4)) := by
    rw [compute_pow_fraction ha (by rw [hden]; decide), hceil, hroot, hnum]
    rfl
  refine ⟨by decide, by decide +kernel, ha, hcompute, fun h => ?_⟩
  have hlt := h.1 ⟨5, hcompute⟩
  rw [hceil] at hlt
  exact absurd hlt (by decide)

end Arithmetic
end Reckoner

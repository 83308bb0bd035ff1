import Mathlib
import Reckoner.Proofs.Arithmetic.Quotient
import Reckoner.Proofs.Evaluation.Tables
import Reckoner.Proofs.Value.Rounding

/-!
# Divisors and multiples of rationals

A rational is a multiple of another if it is an integer times that one (`IsMultiple`).  Under this
order two rationals have a greatest common divisor and a least common multiple (`IsGcd`, `IsLcm`),
each the only one that is not negative (`IsGcd.unique`, `IsLcm.unique`).

The standard functions take them off the terms: the divisor of the numerators over the multiple of
the denominators, and the reverse.  Over a common denominator the former is the greatest common
divisor of two integers (`exists_common_denominator`), so it is a sum of multiples of the two
numbers (`exists_gcd_eq_add`); the latter follows from the product of the two (`gcd_mul_lcm`).
`gcd_lcm_lattice` is what this comes to for the functions by their names.
-/

namespace Reckoner

/-! ## Multiples -/

/-- `x` is an integer times `y`. -/
def IsMultiple (x y : ℚ) : Prop := ∃ k : ℤ, x = k * y

namespace IsMultiple

variable {x y z : ℚ}

theorem zero_left (y : ℚ) : IsMultiple 0 y := ⟨0, by simp⟩

theorem eq_zero (h : IsMultiple x 0) : x = 0 := by
  obtain ⟨k, rfl⟩ := h
  exact mul_zero _

/-- Numbers that are not negative and multiples of each other are equal. -/
theorem antisymm (hx : 0 ≤ x) (hy : 0 ≤ y) (hxy : IsMultiple x y) (hyx : IsMultiple y x) :
    x = y := by
  rcases hy.eq_or_lt with rfl | hpos
  · exact hxy.eq_zero
  · obtain ⟨k, rfl⟩ := hxy
    obtain ⟨l, hl⟩ := hyx
    have hunit : l * k = 1 := by
      have h : (l * k : ℚ) * y = 1 * y := by rw [one_mul, mul_assoc, ← hl]
      exact_mod_cast mul_right_cancel₀ hpos.ne' h
    rcases Int.eq_one_or_neg_one_of_mul_eq_one (by rwa [mul_comm] at hunit) with rfl | rfl
    · simp
    · simp only [Int.cast_neg, Int.cast_one, neg_mul, one_mul] at hx
      linarith

end IsMultiple

/-- `g` is the greatest common divisor of `x` and `y`. -/
structure IsGcd (g x y : ℚ) : Prop where
  nonneg : 0 ≤ g
  left : IsMultiple x g
  right : IsMultiple y g
  greatest : ∀ r, IsMultiple x r → IsMultiple y r → IsMultiple g r

/-- `m` is the least common multiple of `x` and `y`. -/
structure IsLcm (m x y : ℚ) : Prop where
  nonneg : 0 ≤ m
  left : IsMultiple m x
  right : IsMultiple m y
  least : ∀ z, IsMultiple z x → IsMultiple z y → IsMultiple z m

variable {x y g m : ℚ}

theorem IsGcd.unique {g' : ℚ} (h : IsGcd g x y) (h' : IsGcd g' x y) : g = g' :=
  IsMultiple.antisymm h.nonneg h'.nonneg (h.greatest g' h'.left h'.right)
    (h'.greatest g h.left h.right)

theorem IsLcm.unique {m' : ℚ} (h : IsLcm m x y) (h' : IsLcm m' x y) : m = m' :=
  IsMultiple.antisymm h.nonneg h'.nonneg (h'.least m h.left h.right) (h.least m' h'.left h'.right)

/-- A common divisor that is a sum of multiples is the greatest. -/
theorem isGcd_of_eq_add {s t : ℤ} (hg : 0 ≤ g) (hleft : IsMultiple x g) (hright : IsMultiple y g)
    (hsum : g = x * s + y * t) : IsGcd g x y where
  nonneg := hg
  left := hleft
  right := hright
  greatest r hx hy := by
    obtain ⟨i, rfl⟩ := hx
    obtain ⟨j, rfl⟩ := hy
    refine ⟨i * s + j * t, ?_⟩
    rw [hsum]
    push_cast
    ring

/-- What the greatest common divisor leaves of the product is the least common multiple. -/
theorem isLcm_of_mul_eq {s t : ℤ} (hg : 0 < g) (hm : 0 ≤ m) (hleft : IsMultiple x g)
    (hright : IsMultiple y g) (hsum : g = x * s + y * t) (hprod : g * m = |x * y|) :
    IsLcm m x y := by
  obtain ⟨k, hk⟩ := hleft
  obtain ⟨l, hl⟩ := hright
  -- the sign of the product
  obtain ⟨e, he, hsign⟩ : ∃ e : ℤ, (e * e : ℚ) = 1 ∧ |x * y| = e * (x * y) := by
    rcases abs_choice (x * y) with h | h
    · exact ⟨1, by norm_num, by rw [h]; simp⟩
    · exact ⟨-1, by norm_num, by rw [h]; simp⟩
  rw [hsign] at hprod
  -- all multiples are compared after multiplication with `g`
  refine ⟨hm, ⟨e * l, ?_⟩, ⟨e * k, ?_⟩, ?_⟩
  · refine mul_left_cancel₀ hg.ne' ?_
    rw [hprod, hl]
    push_cast
    ring
  · refine mul_left_cancel₀ hg.ne' ?_
    rw [hprod, hk]
    push_cast
    ring
  · rintro z ⟨i, hi⟩ ⟨j, hj⟩
    refine ⟨e * (s * j + t * i), mul_left_cancel₀ hg.ne' ?_⟩
    have hz : g * z = (s * j + t * i) * (x * y) := by
      rw [hsum, add_mul]
      nth_rewrite 1 [hj]
      rw [hi]
      ring
    have hxy : x * y = e * (g * m) := by rw [hprod, ← mul_assoc, he, one_mul]
    rw [hz, hxy]
    push_cast
    ring

namespace Standard

/-! ## Off the terms -/

/-- The divisor of the numerators over the multiple of the denominators. -/
def rationalGcd (x y : ℚ) : ℚ := Int.gcd x.num y.num / Nat.lcm x.den y.den

/-- The multiple of the numerators over the divisor of the denominators. -/
def rationalLcm (x y : ℚ) : ℚ := Int.lcm x.num y.num / Nat.gcd x.den y.den

theorem rationalGcd_comm (x y : ℚ) : rationalGcd x y = rationalGcd y x := by
  rw [rationalGcd, rationalGcd, Int.gcd_comm, Nat.lcm_comm]

theorem rationalLcm_comm (x y : ℚ) : rationalLcm x y = rationalLcm y x := by
  rw [rationalLcm, rationalLcm, Int.lcm_comm, Nat.gcd_comm]

theorem rationalGcd_nonneg (x y : ℚ) : 0 ≤ rationalGcd x y := by
  unfold rationalGcd
  positivity

theorem rationalLcm_nonneg (x y : ℚ) : 0 ≤ rationalLcm x y := by
  unfold rationalLcm
  positivity

/-- Factors that have nothing in common with each other or with the number across do not change a
greatest common divisor. -/
theorem gcd_mul_mul_of_coprime {p p' c c' : ℕ} (h : c.Coprime c') (hp : p.Coprime c')
    (hp' : p'.Coprime c) : Nat.gcd (p * c) (p' * c') = Nat.gcd p p' := by
  rw [Nat.Coprime.gcd_mul_right_cancel_right p' (hp.mul_left h).symm,
    Nat.Coprime.gcd_mul_right_cancel p hp'.symm]

/-- Over a common denominator the greatest common divisor is that of two integers. -/
theorem exists_common_denominator (x y : ℚ) :
    ∃ (u v : ℤ) (d : ℚ), d ≠ 0 ∧ x = u / d ∧ y = v / d ∧ rationalGcd x y = Int.gcd u v / d := by
  -- `c` and `c'` are what the two denominators lack of their least common multiple
  obtain ⟨c', c, hcoprime, hx, hy⟩ := Nat.exists_coprime x.den y.den
  have hgcd : 0 < Nat.gcd x.den y.den := Nat.gcd_pos_of_pos_left _ x.den_pos
  have hleft : Nat.lcm x.den y.den = x.den * c := by
    refine Nat.eq_of_mul_eq_mul_left hgcd ?_
    calc Nat.gcd x.den y.den * Nat.lcm x.den y.den = x.den * y.den := Nat.gcd_mul_lcm _ _
      _ = x.den * (c * Nat.gcd x.den y.den) := congrArg (x.den * ·) hy
      _ = Nat.gcd x.den y.den * (x.den * c) := by ring
  have hright : Nat.lcm x.den y.den = y.den * c' := by
    refine Nat.eq_of_mul_eq_mul_left hgcd ?_
    calc Nat.gcd x.den y.den * Nat.lcm x.den y.den = x.den * y.den := Nat.gcd_mul_lcm _ _
      _ = c' * Nat.gcd x.den y.den * y.den := congrArg (· * y.den) hx
      _ = Nat.gcd x.den y.den * (y.den * c') := by ring
  have hd : (Nat.lcm x.den y.den : ℚ) ≠ 0 :=
    Nat.cast_ne_zero.2 (Nat.lcm_ne_zero x.den_ne_zero y.den_ne_zero)
  refine ⟨x.num * c, y.num * c', Nat.lcm x.den y.den, hd, ?_, ?_, ?_⟩
  · rw [eq_div_iff hd, hleft]
    push_cast
    rw [← mul_assoc, Rat.mul_den_eq_num]
  · rw [eq_div_iff hd, hright]
    push_cast
    rw [← mul_assoc, Rat.mul_den_eq_num]
  · have hxc : x.num.natAbs.Coprime c' := x.reduced.coprime_dvd_right (Dvd.intro _ hx.symm)
    have hyc : y.num.natAbs.Coprime c := y.reduced.coprime_dvd_right (Dvd.intro _ hy.symm)
    rw [rationalGcd, Int.gcd, Int.gcd, Int.natAbs_mul, Int.natAbs_mul, Int.natAbs_natCast,
      Int.natAbs_natCast, gcd_mul_mul_of_coprime hcoprime.symm hxc hyc]

/-- The greatest common divisor is a sum of multiples of the two numbers, and they are multiples
of it. -/
theorem exists_rationalGcd_eq_add (x y : ℚ) :
    (∃ s t : ℤ, rationalGcd x y = x * s + y * t) ∧
      IsMultiple x (rationalGcd x y) ∧ IsMultiple y (rationalGcd x y) := by
  obtain ⟨u, v, d, hd, hx, hy, hgcd⟩ := exists_common_denominator x y
  refine ⟨⟨Int.gcdA u v, Int.gcdB u v, ?_⟩, ?_, ?_⟩
  · have hbezout : (Int.gcd u v : ℚ) = u * Int.gcdA u v + v * Int.gcdB u v := by
      exact_mod_cast Int.gcd_eq_gcd_ab u v
    rw [hgcd, hbezout, hx, hy]
    ring
  · obtain ⟨k, hk⟩ := Int.gcd_dvd_left u v
    refine ⟨k, ?_⟩
    rw [hgcd, hx]
    nth_rewrite 1 [hk]
    push_cast
    ring
  · obtain ⟨k, hk⟩ := Int.gcd_dvd_right u v
    refine ⟨k, ?_⟩
    rw [hgcd, hy]
    nth_rewrite 1 [hk]
    push_cast
    ring

theorem isGcd_rationalGcd (x y : ℚ) : IsGcd (rationalGcd x y) x y := by
  obtain ⟨⟨s, t, hsum⟩, hleft, hright⟩ := exists_rationalGcd_eq_add x y
  exact isGcd_of_eq_add (rationalGcd_nonneg x y) hleft hright hsum

theorem rationalGcd_mul_rationalLcm (x y : ℚ) : rationalGcd x y * rationalLcm x y = |x * y| := by
  have hnum : (Int.gcd x.num y.num * Int.lcm x.num y.num : ℚ) = x.num.natAbs * y.num.natAbs := by
    exact_mod_cast Int.gcd_mul_lcm x.num y.num
  have hden : (Nat.lcm x.den y.den * Nat.gcd x.den y.den : ℚ) = x.den * y.den := by
    rw [mul_comm]
    exact_mod_cast Nat.gcd_mul_lcm x.den y.den
  rw [rationalGcd, rationalLcm, div_mul_div_comm, hnum, hden, abs_mul, Rounding.abs_eq_natAbs_div,
    Rounding.abs_eq_natAbs_div, div_mul_div_comm]

theorem rationalLcm_eq_zero_iff (x y : ℚ) : rationalLcm x y = 0 ↔ x = 0 ∨ y = 0 := by
  have hden : (Nat.gcd x.den y.den : ℚ) ≠ 0 :=
    Nat.cast_ne_zero.2 (Nat.gcd_pos_of_pos_left _ x.den_pos).ne'
  rw [rationalLcm, div_eq_zero_iff, or_iff_left hden, Nat.cast_eq_zero, Int.lcm_eq_zero_iff,
    Rat.num_eq_zero, Rat.num_eq_zero]

theorem isLcm_rationalLcm (x y : ℚ) : IsLcm (rationalLcm x y) x y := by
  by_cases hzero : x = 0 ∨ y = 0
  · rw [(rationalLcm_eq_zero_iff x y).2 hzero]
    refine ⟨le_rfl, .zero_left x, .zero_left y, fun z hx hy => ?_⟩
    have hz : z = 0 := by
      rcases hzero with rfl | rfl
      · exact hx.eq_zero
      · exact hy.eq_zero
    rw [hz]
    exact .zero_left 0
  · obtain ⟨⟨s, t, hsum⟩, hleft, hright⟩ := exists_rationalGcd_eq_add x y
    have hprod := rationalGcd_mul_rationalLcm x y
    have hpos : 0 < rationalGcd x y := by
      refine (rationalGcd_nonneg x y).lt_of_ne fun hg => hzero ?_
      rw [← hg, zero_mul, eq_comm, abs_eq_zero, mul_eq_zero] at hprod
      exact hprod
    exact isLcm_of_mul_eq hpos (rationalLcm_nonneg x y) hleft hright hsum hprod

/-! ## The functions -/

theorem gcd_eq (a b : Value) : gcd a b = .ok (.ofRat (rationalGcd a.toRat b.toRat)) := by
  have hden : (Nat.lcm a.denominator b.denominator : ℤ) ≠ 0 :=
    Int.natCast_ne_zero.2 (Nat.lcm_ne_zero a.toRat.den_ne_zero b.toRat.den_ne_zero)
  rw [gcd, Euclid.gcd_eq, Euclid.lcm_eq, Int.lcm_natCast_natCast, Arithmetic.quotient_eq hden,
    Int.cast_natCast, Int.cast_natCast]
  rfl

theorem lcm_eq (a b : Value) : lcm a b = .ok (.ofRat (rationalLcm a.toRat b.toRat)) := by
  have hden : (Nat.gcd a.denominator b.denominator : ℤ) ≠ 0 :=
    Int.natCast_ne_zero.2 (Nat.gcd_pos_of_pos_left _ a.toRat.den_pos).ne'
  by_cases hzero : a.toRat = 0 ∨ b.toRat = 0
  · rw [lcm, if_pos (by simpa [Value.isZero_iff] using hzero),
      (rationalLcm_eq_zero_iff _ _).2 hzero]
    rfl
  · rw [lcm, if_neg (by simpa [Value.isZero_iff] using hzero), Euclid.gcd_eq, Euclid.lcm_eq,
      Int.gcd_natCast_natCast, Arithmetic.quotient_eq hden, Int.cast_natCast, Int.cast_natCast]
    rfl

/-- The outcome of calling a standard function by its name, if there is one of that name. -/
def outcome? (options : Options) (name : String) (args : List Value) : Option Outcome :=
  ((Registry.standard options).function? name).map fun f => (f.call options args).value

theorem outcome?_binary {options : Options} {name : String}
    {body : Options → Value → Value → Traced Outcome}
    (hf : .binary name body ∈ functions) (a b : Value) :
    outcome? options name [a, b] = some (body options a b).value := by
  have hfound : (Registry.standard options).function? name = some (.binary name body) :=
    Registry.function?_standard options hf
  rw [outcome?, hfound]
  rfl

/-- What the three names give depends on the two numbers only. -/
theorem outcome?_eq (options : Options) (a b : Value) :
    outcome? options "gcd" [a, b] = some (.ok (.ofRat (rationalGcd a.toRat b.toRat))) ∧
    outcome? options "hcf" [a, b] = some (.ok (.ofRat (rationalGcd a.toRat b.toRat))) ∧
    outcome? options "lcm" [a, b] = some (.ok (.ofRat (rationalLcm a.toRat b.toRat))) := by
  have hgcd : .binary "gcd" (fun _ x y => pure (gcd x y)) ∈ functions := by simp [functions]
  have hhcf : .binary "hcf" (fun _ x y => pure (gcd x y)) ∈ functions := by simp [functions]
  have hlcm : .binary "lcm" (fun _ x y => pure (lcm x y)) ∈ functions := by simp [functions]
  rw [← gcd_eq, ← lcm_eq]
  exact ⟨outcome?_binary hgcd a b, outcome?_binary hhcf a b, outcome?_binary hlcm a b⟩

/-- Pairs of values with the same divisor and multiple are the same to all three. -/
theorem outcome?_congr (options : Options) {name : String} (hname : name ∈ ["gcd", "hcf", "lcm"])
    {a b c d : Value} (hg : rationalGcd c.toRat d.toRat = rationalGcd a.toRat b.toRat)
    (hm : rationalLcm c.toRat d.toRat = rationalLcm a.toRat b.toRat) :
    outcome? options name [c, d] = outcome? options name [a, b] := by
  obtain ⟨hgcd, hhcf, hlcm⟩ := outcome?_eq options a b
  obtain ⟨hgcd', hhcf', hlcm'⟩ := outcome?_eq options c d
  rw [hg] at hgcd' hhcf'
  rw [hm] at hlcm'
  simp only [List.mem_cons, List.not_mem_nil, or_false] at hname
  rcases hname with rfl | rfl | rfl
  · exact hgcd'.trans hgcd.symm
  · exact hhcf'.trans hhcf.symm
  · exact hlcm'.trans hlcm.symm

end Standard
end Reckoner

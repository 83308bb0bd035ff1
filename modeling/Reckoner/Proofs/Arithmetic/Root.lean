import Mathlib
import Reckoner.Root

/-!
# Exact roots

The descent by averages ends in the integer part of the root (`floorRoot_eq_nthRoot`), so an
exact root is found whenever there is one: `perfectNat?_eq_some_iff` for natural numbers,
`perfectRat?_eq_some_iff` for rationals that are not negative.  A rational in lowest terms has a
root exactly if its numerator and its denominator both have one, and the quotient of these is it.
-/

namespace Reckoner
namespace Root

/-! ## The integer part of a root -/

/-- The average of `q - 1` times `x` and `n / x ^ (q - 1)`. -/
theorem lt_average_succ_pow {q : ℕ} (hq : q ≠ 0) {x : ℕ} (hx : x ≠ 0) (n : ℕ) :
    n < (((q - 1) * x + n / x ^ (q - 1)) / q + 1) ^ q := by
  obtain ⟨m, rfl⟩ := Nat.exists_eq_succ_of_ne_zero hq
  rw [Nat.succ_sub_one, add_comm (m * x)]
  exact Nat.nthRoot.lt_pow_go_succ_aux hx

/-- An average that is not smaller than `x` shows that `x` is not above the root. -/
theorem pow_le_of_le_average {q : ℕ} (hq : q ≠ 0) {x n : ℕ}
    (h : x ≤ ((q - 1) * x + n / x ^ (q - 1)) / q) : x ^ q ≤ n := by
  obtain ⟨m, rfl⟩ := Nat.exists_eq_succ_of_ne_zero hq
  rw [Nat.succ_sub_one, Nat.le_div_iff_mul_le m.succ_pos] at h
  have hle : x ≤ n / x ^ m := by
    rw [Nat.mul_succ, mul_comm] at h
    exact Nat.add_le_add_iff_left.1 h
  rw [pow_succ']
  exact (Nat.mul_le_mul_right _ hle).trans (Nat.div_mul_le_self _ _)

/-- The descent from above the root ends at its integer part. -/
theorem descend_spec {q : ℕ} (hq : q ≠ 0) (n : ℕ) {x : ℕ} (hx : n < (x + 1) ^ q) :
    descend q n x ^ q ≤ n ∧ n < (descend q n x + 1) ^ q := by
  induction x using Nat.strong_induction_on with
  | _ x ih =>
    rw [descend]
    split
    · rename_i hlt
      exact ih _ hlt (lt_average_succ_pow hq (Nat.ne_of_gt (Nat.zero_lt_of_lt hlt)) n)
    · rename_i hge
      exact ⟨pow_le_of_le_average hq (Nat.not_lt.1 hge), hx⟩

theorem floorRoot_eq_nthRoot {q : ℕ} (hq : q ≠ 0) (n : ℕ) : floorRoot q n = Nat.nthRoot q n := by
  rw [floorRoot]
  split
  · rename_i hn
    rw [hn, Nat.nthRoot_zero_right hq]
  · rename_i hn
    split
    · rename_i hshort
      refine (Nat.nthRoot_eq_of_le_of_lt ?_ ?_).symm
      · rw [one_pow]
        exact Nat.pos_of_ne_zero hn
      · exact (Nat.log2_lt hn).1 hshort
    · -- a power of two with as many bits as the root has at most
      have hstart : n < (twoPow (n.log2 / q + 1) + 1) ^ q := by
        calc n < 2 ^ (n.log2 + 1) := Nat.lt_log2_self
          _ ≤ 2 ^ (q * (n.log2 / q + 1)) :=
            Nat.pow_le_pow_right (by decide) (Nat.lt_mul_div_succ _ (Nat.pos_of_ne_zero hq))
          _ = twoPow (n.log2 / q + 1) ^ q := by rw [mul_comm, pow_mul]; rfl
          _ ≤ (twoPow (n.log2 / q + 1) + 1) ^ q := Nat.pow_le_pow_left (Nat.le_succ _) q
      obtain ⟨hle, hlt⟩ := descend_spec hq n hstart
      exact (Nat.nthRoot_eq_of_le_of_lt hle hlt).symm

/-! ## Exact roots -/

theorem perfectNat?_eq_some_iff {q : ℕ} (hq : q ≠ 0) {n r : ℕ} :
    perfectNat? q n = some r ↔ r ^ q = n := by
  rw [perfectNat?, floorRoot_eq_nthRoot hq, Option.ite_none_right_eq_some, Option.some_inj]
  constructor
  · rintro ⟨hpow, rfl⟩
    exact hpow
  · rintro rfl
    have hroot := Nat.nthRoot_pow hq r
    exact ⟨congrArg (· ^ q) hroot, hroot⟩

theorem perfectInt?_natCast {q : ℕ} (hq : q ≠ 0) (n : ℕ) :
    perfectInt? q n = (perfectNat? q n).map fun r => (r : ℤ) := by
  rw [perfectInt?, if_neg hq, if_neg (Int.not_lt.2 (Int.natCast_nonneg n)), Int.natAbs_natCast]

/-- In lowest terms the root of a rational is taken of numerator and denominator. -/
theorem perfectRat?_eq_some_iff {q : ℕ} (hq : q ≠ 0) {x r : ℚ} (hx : 0 ≤ x) :
    perfectRat? q x = some r ↔ 0 ≤ r ∧ r ^ q = x := by
  have hnum : (x.num.natAbs : ℤ) = x.num := Int.natAbs_of_nonneg (Rat.num_nonneg.2 hx)
  rw [perfectRat?, ← hnum, perfectInt?_natCast hq, perfectInt?_natCast hq]
  constructor
  · intro h
    cases hn : perfectNat? q x.num.natAbs with
    | none => simp [hn] at h
    | some n =>
      cases hd : perfectNat? q x.den with
      | none => simp [hn, hd] at h
      | some d =>
        have hr : (n / d : ℚ) = r := by
          rw [hn, hd] at h
          rw [← Option.some.inj h, Rat.divInt_eq_div]
          rfl
        rw [perfectNat?_eq_some_iff hq] at hn hd
        have hpow : (n / d : ℚ) ^ q = x.num / x.den := by
          rw [div_pow, ← hnum, ← hn, ← hd]
          push_cast
          rfl
        exact ⟨hr ▸ by positivity, by rw [← hr, hpow, Rat.num_div_den]⟩
  · rintro ⟨hr, rfl⟩
    have hn : perfectNat? q (r ^ q).num.natAbs = some r.num.natAbs := by
      rw [perfectNat?_eq_some_iff hq, Rat.num_pow, Int.natAbs_pow]
    have hd : perfectNat? q (r ^ q).den = some r.den := by
      rw [perfectNat?_eq_some_iff hq, Rat.den_pow]
    rw [hn, hd]
    show some (Rat.divInt r.num.natAbs r.den) = some r
    rw [Int.natAbs_of_nonneg (Rat.num_nonneg.2 hr), Rat.num_divInt_den]

end Root
end Reckoner

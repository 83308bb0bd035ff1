import Mathlib
import Reckoner.Proofs.FixedPoint.Hyperbolic
import Reckoner.Proofs.FixedPoint.Widening

/-!
# The logarithm: its inverse, its sign, its error

A positive number is a mantissa between one half and two, times a power of two
(`mantissa_mul_zpow`, `mantissa_bounds`).  The kernel takes the mantissa less one over the mantissa
and one, which is less than a third (`three_mul_abs_reducedNum_lt`).

The binary exponent of an inverse is the opposite, and its mantissa is the inverse with numerator
and denominator exchanged (`binaryMantissa_inv`); the kernel is odd, so `lnScaled` changes sign
exactly (`lnScaled_inv`), and both numbers are widened alike.

A number of at least one has a binary exponent of at least zero.  If it is zero, the mantissa is at
least one and its logarithm is not negative; if it is positive, the mantissa may be below one, but
not below one half, and the sum of its series is at most that of a third, half of one `ln 2`
(`lnScaled_nonneg`).  No truncation can turn the sign.

The error is that of the kernel, once for the mantissa and once for each power of two
(`ln_kernel_accurate`, `abs_lnScaled_sub_log_le`), at widths that are words; at the first one that
is none, nothing is left of the kernel (`atanhScaled_past_word`).
-/

namespace Reckoner
namespace FixedPoint

/-! ## Binary lengths -/

/-- A number `k` binary digits longer than another lies within a factor of two of `2 ^ k` times
it. -/
theorem bounds_of_log2_eq {a b k : ℕ} (ha : a ≠ 0) (hb : b ≠ 0) (h : a.log2 = b.log2 + k) :
    a < 2 * (b * twoPow k) ∧ b * twoPow k < 2 * a := by
  have hpow : 2 ^ (a.log2 + 1) = 2 ^ (b.log2 + 1) * twoPow k := by
    rw [h, Nat.add_right_comm, pow_add]
    rfl
  constructor
  · calc a < 2 ^ (a.log2 + 1) := Nat.lt_log2_self
      _ = 2 * (2 ^ b.log2 * twoPow k) := by rw [hpow, pow_succ]; ring
      _ ≤ 2 * (b * twoPow k) := by
        gcongr
        exact Nat.log2_self_le hb
  · calc b * twoPow k < 2 ^ (b.log2 + 1) * twoPow k :=
          Nat.mul_lt_mul_of_pos_right Nat.lt_log2_self (twoPow_pos k)
      _ = 2 * 2 ^ a.log2 := by rw [← hpow, pow_succ']
      _ ≤ 2 * a := by
        gcongr
        exact Nat.log2_self_le ha

/-! ## The reduced argument -/

/-- The mantissa of a positive number: what is left of it without its power of two. -/
def mantissa (x : ℚ) : ℚ := (binaryMantissa x).1 / (binaryMantissa x).2

/-- The numerator of `(m - 1) / (m + 1)`, where `m` is the mantissa. -/
def reducedNum (x : ℚ) : ℤ := (binaryMantissa x).1 - (binaryMantissa x).2

/-- The denominator of `(m - 1) / (m + 1)`. -/
def reducedDen (x : ℚ) : ℤ := (binaryMantissa x).1 + (binaryMantissa x).2

/-- The power of two is taken out exactly. -/
theorem mantissa_mul_zpow (x : ℚ) : mantissa x * 2 ^ binaryExponent x = x := by
  have htwo (k : ℕ) : (((twoPow k : ℕ) : ℤ) : ℚ) = 2 ^ k := by
    rw [show twoPow k = 2 ^ k from rfl]
    push_cast
    rfl
  have hquotient : (x.num : ℚ) / ((x.den : ℕ) : ℤ) = x := by exact_mod_cast Rat.num_div_den x
  rw [mantissa, binaryMantissa]
  cases binaryExponent x with
  | ofNat k =>
    dsimp only
    rw [Int.ofNat_eq_natCast, zpow_natCast, Int.cast_mul, htwo, div_mul_eq_mul_div,
      mul_div_mul_right _ _ (by positivity), hquotient]
  | negSucc k =>
    dsimp only
    rw [zpow_negSucc, Int.cast_mul, htwo, ← div_eq_mul_inv, div_right_comm,
      mul_div_cancel_right₀ _ (by positivity), hquotient]

theorem lnScaled_eq (x : ℚ) (w : ℕ) : lnScaled x w =
    ln2Scaled w * binaryExponent x + atanhScaled (reducedNum x) (reducedDen x) w * 2 :=
  rfl

/-! ## The inverse -/

section

variable {x : ℚ} (hx : 0 < x)
include hx

theorem num_inv_of_pos : x⁻¹.num = x.den := by
  rw [Rat.num_inv, Int.sign_eq_one_of_pos (Rat.num_pos.2 hx), one_mul]

theorem natAbs_num_of_pos : (x.num.natAbs : ℤ) = x.num :=
  Int.natAbs_of_nonneg (Rat.num_pos.2 hx).le

theorem den_inv_of_pos : (x⁻¹.den : ℤ) = x.num := by
  rw [Rat.den_inv, if_neg (Rat.num_pos.2 hx).ne', natAbs_num_of_pos hx]

theorem binaryExponent_inv : binaryExponent x⁻¹ = -binaryExponent x := by
  have hden : x⁻¹.den = x.num.natAbs := by
    rw [Rat.den_inv, if_neg (Rat.num_pos.2 hx).ne']
  rw [binaryExponent, binaryExponent, num_inv_of_pos hx, hden, Int.natAbs_natCast]
  omega

theorem binaryMantissa_inv : binaryMantissa x⁻¹ = (binaryMantissa x).swap := by
  rw [binaryMantissa, binaryMantissa, binaryExponent_inv hx, num_inv_of_pos hx, den_inv_of_pos hx]
  rcases binaryExponent x with (_ | k) | k
  · simp
  · rfl
  · rfl

theorem reducedNum_inv : reducedNum x⁻¹ = -reducedNum x := by
  rw [reducedNum, binaryMantissa_inv hx, reducedNum, neg_sub]
  rfl

theorem reducedDen_inv : reducedDen x⁻¹ = reducedDen x := by
  rw [reducedDen, binaryMantissa_inv hx, reducedDen, add_comm]
  rfl

theorem lnScaled_inv (w : ℕ) : lnScaled x⁻¹ w = -lnScaled x w := by
  rw [lnScaled_eq, lnScaled_eq, binaryExponent_inv hx, reducedNum_inv hx, reducedDen_inv hx,
    atanhScaled_neg]
  ring

/-! ## The reduction -/

/-- The mantissa lies strictly between one half and two. -/
theorem binaryMantissa_bounds :
    0 < (binaryMantissa x).1 ∧ 0 < (binaryMantissa x).2 ∧
      (binaryMantissa x).1 < 2 * (binaryMantissa x).2 ∧
        (binaryMantissa x).2 < 2 * (binaryMantissa x).1 := by
  have hnum := natAbs_num_of_pos hx
  have hn : x.num.natAbs ≠ 0 := Int.natAbs_ne_zero.2 (Rat.num_pos.2 hx).ne'
  rw [binaryMantissa]
  cases hk : binaryExponent x with
  | ofNat k =>
    have hlog : x.num.natAbs.log2 = x.den.log2 + k := by
      rw [binaryExponent, Int.ofNat_eq_natCast] at hk
      omega
    obtain ⟨hhigh, hlow⟩ := bounds_of_log2_eq hn x.den_nz hlog
    have hpos : 0 < x.den * twoPow k := Nat.mul_pos x.den_pos (twoPow_pos k)
    dsimp only
    rw [← hnum]
    norm_cast
    exact ⟨Nat.pos_of_ne_zero hn, hpos, hhigh, hlow⟩
  | negSucc k =>
    have hlog : x.den.log2 = x.num.natAbs.log2 + (k + 1) := by
      rw [binaryExponent] at hk
      omega
    obtain ⟨hhigh, hlow⟩ := bounds_of_log2_eq x.den_nz hn hlog
    have hpos : 0 < x.num.natAbs * twoPow (k + 1) :=
      Nat.mul_pos (Nat.pos_of_ne_zero hn) (twoPow_pos _)
    dsimp only
    rw [← hnum]
    norm_cast
    exact ⟨hpos, x.den_pos, hlow, hhigh⟩

theorem reducedDen_pos : 0 < reducedDen x := by
  obtain ⟨hnum, hden, -, -⟩ := binaryMantissa_bounds hx
  rw [reducedDen]
  omega

/-- So the argument of the series is less than a third. -/
theorem three_mul_abs_reducedNum_lt : 3 * |reducedNum x| < reducedDen x := by
  obtain ⟨-, -, hlow, hhigh⟩ := binaryMantissa_bounds hx
  rw [reducedNum, reducedDen]
  rcases abs_cases ((binaryMantissa x).1 - (binaryMantissa x).2) with ⟨h, -⟩ | ⟨h, -⟩ <;> omega

theorem mantissa_bounds : 1 / 2 < mantissa x ∧ mantissa x < 2 := by
  obtain ⟨-, hden, hhigh, hlow⟩ := binaryMantissa_bounds hx
  have hden' : (0 : ℚ) < (binaryMantissa x).2 := by exact_mod_cast hden
  have hhigh' : ((binaryMantissa x).1 : ℚ) < 2 * (binaryMantissa x).2 := by exact_mod_cast hhigh
  have hlow' : ((binaryMantissa x).2 : ℚ) < 2 * (binaryMantissa x).1 := by exact_mod_cast hlow
  rw [mantissa, lt_div_iff₀ hden', div_lt_iff₀ hden']
  constructor <;> linarith

theorem mantissa_pos : 0 < mantissa x :=
  (by norm_num : (0 : ℚ) < 1 / 2).trans (mantissa_bounds hx).1

/-- The series takes the mantissa less one, over the mantissa and one. -/
theorem reducedNum_div_reducedDen :
    (reducedNum x : ℚ) / reducedDen x = (mantissa x - 1) / (mantissa x + 1) := by
  obtain ⟨hnum, hden, -, -⟩ := binaryMantissa_bounds hx
  have hden' : ((binaryMantissa x).2 : ℚ) ≠ 0 := by exact_mod_cast hden.ne'
  rw [reducedNum, reducedDen, mantissa, div_sub_one hden', div_add_one hden',
    div_div_div_cancel_right₀ hden']
  push_cast
  rfl

end

/-! ## The sign -/

section

variable {x : ℚ} (hone : 1 ≤ x)
include hone

theorem den_le_num_of_one_le : (x.den : ℤ) ≤ x.num := by
  simpa [Rat.le_iff] using hone

theorem binaryExponent_nonneg : 0 ≤ binaryExponent x := by
  have hle : x.den ≤ x.num.natAbs := by
    have h := den_le_num_of_one_le hone
    omega
  have hlog : x.den.log2 ≤ x.num.natAbs.log2 := by
    rw [Nat.log2_eq_log_two, Nat.log2_eq_log_two]
    exact Nat.log_mono_right hle
  rw [binaryExponent]
  omega

/-- With the binary exponent zero, a number of at least one is its own mantissa. -/
theorem binaryMantissa_le_of_exponent_eq_zero (hexponent : binaryExponent x = 0) :
    (binaryMantissa x).2 ≤ (binaryMantissa x).1 := by
  have hzero : binaryExponent x = Int.ofNat 0 := hexponent
  rw [binaryMantissa, hzero]
  dsimp only
  rw [twoPow_zero, Nat.cast_one, mul_one]
  exact den_le_num_of_one_le hone

theorem lnScaled_nonneg (w : ℕ) : 0 ≤ lnScaled x w := by
  have hx : 0 < x := one_pos.trans_le hone
  have hthird := (three_mul_abs_reducedNum_lt hx).le
  have hsum := reducedDen_pos hx
  have hexponent := binaryExponent_nonneg hone
  rw [lnScaled_eq, ln2Scaled]
  set k := binaryExponent x with hk
  set a := atanhScaled (reducedNum x) (reducedDen x) w with ha
  obtain hzero | hpos := hexponent.eq_or_lt
  · have hnonneg : 0 ≤ a := atanhScaled_nonneg w hsum hthird
      (sub_nonneg.2 (binaryMantissa_le_of_exponent_eq_zero hone hzero.symm))
    rw [← hzero]
    omega
  · have hbound := abs_le.1 (abs_atanhScaled_le w hsum hthird)
    have hlargest : 0 ≤ atanhScaled 1 3 w := atanhScaled_nonneg w three_pos (by norm_num) one_pos.le
    -- one `ln 2` outweighs the series, and the others are not negative
    have hothers : 0 ≤ atanhScaled 1 3 w * (k - 1) := mul_nonneg hlargest (by omega)
    linarith

end

/-! ## Accuracy -/

/-- The logarithm of the mantissa is that of the reduced argument. -/
theorem log_mantissa {x : ℚ} (hx : 0 < x) :
    Real.log (1 + (reducedNum x / reducedDen x : ℚ)) -
      Real.log (1 - (reducedNum x / reducedDen x : ℚ)) = Real.log (mantissa x) := by
  have hpos : (0 : ℝ) < mantissa x := by exact_mod_cast mantissa_pos hx
  have hplus : 1 + ((mantissa x : ℝ) - 1) / (mantissa x + 1) =
      2 * mantissa x / (mantissa x + 1) := by
    field_simp
    ring
  have hminus : 1 - ((mantissa x : ℝ) - 1) / (mantissa x + 1) = 2 / (mantissa x + 1) := by
    field_simp
    ring
  rw [reducedNum_div_reducedDen hx]
  push_cast
  rw [hplus, hminus, ← Real.log_div (by positivity) (by positivity),
    div_div_div_cancel_right₀ (by positivity), mul_div_cancel_left₀ _ two_ne_zero]

/-- **The logarithm is accurate**: its error is that of the kernel, once for the mantissa and once
for each power of two. -/
theorem abs_lnScaled_sub_log_le {x : ℚ} (hx : 0 < x) (w : ℕ) :
    |(lnScaled x w : ℝ) - 10 ^ toWord w * Real.log x| ≤
      (|(binaryExponent x : ℝ)| + 1) * (8 * toWord w + 2) := by
  set k := binaryExponent x with hk
  have hmantissa := abs_two_mul_atanhScaled_sub_log_le w (reducedDen_pos hx)
    (three_mul_abs_reducedNum_lt hx).le
  rw [log_mantissa hx] at hmantissa
  have hln2 : |(k : ℝ) * (ln2Scaled w - 10 ^ toWord w * Real.log 2)| ≤
      |(k : ℝ)| * (8 * toWord w + 2) := by
    rw [abs_mul]
    gcongr
    exact abs_ln2Scaled_sub_log_le w
  have hlog : Real.log x = k * Real.log 2 + Real.log (mantissa x) := by
    have hpos : (0 : ℝ) < mantissa x := by exact_mod_cast mantissa_pos hx
    have hproduct : (mantissa x : ℝ) * 2 ^ k = x := by
      have h := congrArg (Rat.cast : ℚ → ℝ) (mantissa_mul_zpow x)
      push_cast at h
      exact h
    rw [← hproduct, Real.log_mul hpos.ne' (by positivity), Real.log_zpow, add_comm]
  have hsplit : (lnScaled x w : ℝ) - 10 ^ toWord w * Real.log x =
      k * (ln2Scaled w - 10 ^ toWord w * Real.log 2) +
        (atanhScaled (reducedNum x) (reducedDen x) w * 2 -
          10 ^ toWord w * Real.log (mantissa x)) := by
    rw [lnScaled_eq, hlog, ← hk]
    push_cast
    ring
  calc |(lnScaled x w : ℝ) - 10 ^ toWord w * Real.log x|
      ≤ |(k : ℝ)| * (8 * toWord w + 2) + (8 * toWord w + 2) := by
        rw [hsplit]
        exact (abs_add_le _ _).trans (add_le_add hln2 hmantissa)
    _ = (|(k : ℝ)| + 1) * (8 * toWord w + 2) := by ring

/-- **The kernel of the logarithm is accurate.**  Every positive number is a mantissa between one
half and two, times a power of two, and the series is called with an argument of magnitude below a
third.  Up to a third, at all widths that are words of 32 bits, its sum is within four units for
each digit of the width, and four more, of the exact partial sums, however many terms these have. -/
theorem ln_kernel_accurate (w : ℕ) :
    (∀ x : ℚ, 0 < x → x = mantissa x * 2 ^ binaryExponent x ∧
      1 / 2 < mantissa x ∧ mantissa x < 2 ∧
      (reducedNum x : ℚ) / reducedDen x = (mantissa x - 1) / (mantissa x + 1) ∧
      3 * |reducedNum x| < reducedDen x ∧
      lnScaled x w =
        ln2Scaled w * binaryExponent x + atanhScaled (reducedNum x) (reducedDen x) w * 2) ∧
    ∀ (zn zd : ℤ) (N : ℕ), w < wordCount → 0 < zd → 3 * |zn| ≤ zd → 2 * w + 1 ≤ N →
      |(atanhScaled zn zd w : ℚ) - 10 ^ w *
        ∑ j ∈ Finset.range N, ((zn : ℚ) / zd) ^ (2 * j + 1) / (2 * j + 1)| ≤ 4 * w + 4 := by
  refine ⟨?_, ?_⟩
  · intro x hx
    obtain ⟨hlow, hhigh⟩ := mantissa_bounds hx
    exact ⟨(mantissa_mul_zpow x).symm, hlow, hhigh, reducedNum_div_reducedDen hx,
      three_mul_abs_reducedNum_lt hx, lnScaled_eq x w⟩
  · intro zn zd N hword hzd hz hN
    have hwidth : toWord w = w := toWord_of_lt hword
    have h := abs_atanhScaled_sub_le w hzd hz (N := N) (by omega)
    simp only [atanhTerm, hwidth] at h
    linarith only [h]

/-- A number below one, and the kernel at the end of its range. -/
theorem ln_kernel_accurate_fiveEighths :
    (0 : ℚ) < 5 / 8 ∧ binaryExponent (5 / 8) = -1 ∧ reducedNum (5 / 8) = 2 ∧
    reducedDen (5 / 8) = 18 ∧ (5 / 8 : ℚ) = mantissa (5 / 8) * 2 ^ (-1 : ℤ) ∧
    1 / 2 < mantissa (5 / 8) ∧ mantissa (5 / 8) < 2 ∧ 3 * |(2 : ℤ)| < 18 ∧
    lnScaled (5 / 8) 12 = ln2Scaled 12 * -1 + atanhScaled 2 18 12 * 2 ∧
    12 < wordCount ∧ (0 : ℤ) < 3 ∧ 3 * |(-1 : ℤ)| ≤ 3 ∧ 2 * 12 + 1 ≤ 25 ∧
    atanhScaled (-1) 3 12 = -346573590275 ∧
    |((-346573590275 : ℤ) : ℚ) - 10 ^ 12 * ∑ j ∈ Finset.range 25,
      (((-1 : ℤ) : ℚ) / (3 : ℤ)) ^ (2 * j + 1) / (2 * j + 1)| ≤ 4 * ((12 : ℕ) : ℚ) + 4 := by
  have hpos : (0 : ℚ) < 5 / 8 := by norm_num
  have hexponent : binaryExponent (5 / 8) = -1 := by decide +kernel
  have hnum : reducedNum (5 / 8) = 2 := by decide +kernel
  have hden : reducedDen (5 / 8) = 18 := by decide +kernel
  have hend : atanhScaled (-1) 3 12 = -346573590275 := by decide +kernel
  have hword : 12 < wordCount := by decide
  obtain ⟨hproduct, hlow, hhigh, -, hthird, hvalue⟩ := (ln_kernel_accurate 12).1 (5 / 8) hpos
  have herror := (ln_kernel_accurate 12).2 (-1) 3 25 hword (by norm_num) (by norm_num)
    (by norm_num)
  rw [hexponent] at hproduct
  rw [hnum, hden] at hthird
  rw [hexponent, hnum, hden] at hvalue
  rw [hend] at herror
  exact ⟨hpos, hexponent, hnum, hden, hproduct, hlow, hhigh, hthird, hvalue, hword, by norm_num,
    by norm_num, by norm_num, hend, herror⟩

/-- At the first width that is no word there is nothing left of the series at a third, and nothing
of `ln 2`. -/
theorem atanhScaled_past_word :
    atanhScaled 1 3 wordCount = 0 ∧ ∀ N, 2 * wordCount + 1 ≤ N →
      ¬|(atanhScaled 1 3 wordCount : ℚ) - 10 ^ wordCount *
        ∑ j ∈ Finset.range N, (((1 : ℤ) : ℚ) / (3 : ℤ)) ^ (2 * j + 1) / (2 * j + 1)| ≤
          4 * wordCount + 4 := by
  have hvalue : atanhScaled 1 3 wordCount = 0 := by decide +kernel
  have hcount : (wordCount : ℚ) = 4294967296 := by norm_num [wordCount]
  refine ⟨hvalue, fun N hN => ?_⟩
  -- the first term alone is a third
  have hthird : 1 / 3 ≤ ∑ j ∈ Finset.range N,
      (((1 : ℤ) : ℚ) / (3 : ℤ)) ^ (2 * j + 1) / (2 * j + 1) := by
    have hfirst := Finset.single_le_sum
      (f := fun j : ℕ => (((1 : ℤ) : ℚ) / (3 : ℤ)) ^ (2 * j + 1) / (2 * j + 1))
      (fun j _ => by positivity) (Finset.mem_range.2 (by omega : 0 < N))
    refine le_trans ?_ hfirst
    norm_num
  have hlarge : (10 : ℚ) ^ 11 ≤ 10 ^ wordCount := pow_le_pow_right₀ (by norm_num) (by decide)
  rw [hvalue, hcount, Int.cast_zero, zero_sub, abs_neg]
  generalize (10 : ℚ) ^ wordCount = unit at hlarge ⊢
  generalize ∑ j ∈ Finset.range N,
    (((1 : ℤ) : ℚ) / (3 : ℤ)) ^ (2 * j + 1) / (2 * (j : ℚ) + 1) = sum at hthird ⊢
  have hpos : 0 < unit := by linarith
  have hproduct : unit * (1 / 3) ≤ unit * sum := by gcongr
  intro hclose
  linarith [(abs_le.1 hclose).2]

/-! ## Results -/

/-- The logarithm of a number, widened: its integer and the width of its unit. -/
def widenedLn (x : ℚ) (precision : ℕ) : ℤ × ℕ :=
  widen precision (toSize (precision + guardDigits)) fun w =>
    (lnScaled x w, knownDigits (lnScaled x w))

theorem ln_of_nonpos {x : ℚ} (hx : x ≤ 0) (precision : ℕ) :
    ln x precision = .error (.arithmetic .nonPositiveLogarithm) :=
  if_pos (Rat.num_nonpos.2 hx)

theorem ln_one (precision : ℕ) : ln 1 precision = .ok 0 := rfl

theorem ln_eq_ok {x : ℚ} (hx : 0 < x) (hone : x ≠ 1) (precision : ℕ) :
    ln x precision = .ok (toRat (widenedLn x precision).1 (widenedLn x precision).2) := by
  rw [ln, if_neg (not_le.2 (Rat.num_pos.2 hx)), if_neg hone]
  rfl

theorem widenedLn_inv {x : ℚ} (hx : 0 < x) (precision : ℕ) :
    widenedLn x⁻¹ precision = (-(widenedLn x precision).1, (widenedLn x precision).2) := by
  simp only [widenedLn, lnScaled_inv hx, knownDigits_neg]
  exact widen_map (fun w => (lnScaled x w, knownDigits (lnScaled x w))) Neg.neg precision _

theorem toRat_widenedLn_nonneg {x : ℚ} (hone : 1 ≤ x) (precision : ℕ) :
    0 ≤ toRat (widenedLn x precision).1 (widenedLn x precision).2 := by
  obtain ⟨w, hresult⟩ := exists_widen_eq (fun w => (lnScaled x w, knownDigits (lnScaled x w)))
    precision (toSize (precision + guardDigits))
  have hwidened : widenedLn x precision = (lnScaled x w, w) := hresult
  have hnonneg : (0 : ℚ) ≤ lnScaled x w := by exact_mod_cast lnScaled_nonneg hone w
  rw [hwidened, toRat_eq]
  positivity

/-- **The logarithm is antisymmetric and never has the wrong sign.**  A positive number and its
inverse have opposite logarithms, exactly; the logarithm of a number of at least one is not
negative, and that of a number of at most one not positive.  There is no logarithm of zero or of a
negative number. -/
theorem ln_antisymmetric (x : ℚ) (precision : ℕ) :
    (x ≤ 0 → ln x precision = .error (.arithmetic .nonPositiveLogarithm)) ∧
    (0 < x → ∃ l, ln x precision = .ok l ∧ ln (1 / x) precision = .ok (-l) ∧
      (1 ≤ x → 0 ≤ l) ∧ (x ≤ 1 → l ≤ 0)) := by
  refine ⟨fun hx => ln_of_nonpos hx precision, fun hx => ?_⟩
  rw [one_div]
  obtain rfl | hone := eq_or_ne x 1
  · refine ⟨0, ln_one precision, ?_, fun _ => le_rfl, fun _ => le_rfl⟩
    rw [inv_one, neg_zero, ln_one]
  · have hinv : x⁻¹ ≠ 1 := by rwa [Ne, inv_eq_one]
    have hopposite : toRat (widenedLn x⁻¹ precision).1 (widenedLn x⁻¹ precision).2 =
        -toRat (widenedLn x precision).1 (widenedLn x precision).2 := by
      rw [widenedLn_inv hx, toRat_neg]
    refine ⟨_, ln_eq_ok hx hone precision, ?_, fun h => toRat_widenedLn_nonneg h precision,
      fun h => ?_⟩
    · rw [ln_eq_ok (inv_pos.2 hx) hinv, hopposite]
    · rw [← neg_nonneg, ← hopposite]
      exact toRat_widenedLn_nonneg ((one_le_inv₀ hx).2 h) precision

/-- A number just above one that is reduced to a mantissa just above one half. -/
theorem ln_antisymmetric_sixteenFifteenths :
    (-2 : ℚ) ≤ 0 ∧ ln (-2) 10 = .error (.arithmetic .nonPositiveLogarithm) ∧
    (0 : ℚ) < 16 / 15 ∧ (1 : ℚ) ≤ 16 / 15 ∧ binaryExponent (16 / 15) = 1 ∧
      ∃ l, ln (16 / 15) 10 = .ok l ∧ ln (1 / (16 / 15)) 10 = .ok (-l) ∧ 0 ≤ l := by
  have hneg : (-2 : ℚ) ≤ 0 := by norm_num
  have hpos : (0 : ℚ) < 16 / 15 := by norm_num
  have hone : (1 : ℚ) ≤ 16 / 15 := by norm_num
  obtain ⟨l, hl, hinv, hnonneg, -⟩ := (ln_antisymmetric (16 / 15) 10).2 hpos
  exact ⟨hneg, (ln_antisymmetric (-2) 10).1 hneg, hpos, hone, by decide +kernel, l, hl, hinv,
    hnonneg hone⟩

end FixedPoint
end Reckoner

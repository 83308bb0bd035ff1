import Mathlib
import Reckoner.Proofs.Text.Numeral
import Reckoner.Proofs.Value.Canonical
import Reckoner.Proofs.Value.Rounding

/-!
# Significant digits

The leading digit of a number stands at a power of ten, its decade (`InDecade`), and every number
but zero has exactly one.  `Decimal.significant` does not know the decade: it compares the lengths
of numerator and denominator, which leaves two candidates, rounds for the lower one, and rounds
again from the exact quotient if the result came out a digit too long.  A result is too long for
two reasons, because the guess was wrong or because the rounding carried into a new digit, and the
second rounding is right in both cases (`Decimal.exists_significantMagnitude`).

All of this asks that the places in question are words of 32 bits (`IsWordPlace`): the exponent of
a larger power of ten is cut off, and so is the scale of a decimal.

* `Decimal.exists_toRat_significant`: in the decade of the number, the result is its magnitude
  rounded to the nearest multiple of the last kept place, a half to the even one, with its sign;
* `Decimal.toRat_significant_of_digits`: a number with few enough digits is left as it is, so
  rounding twice is rounding once;
* `Decimal.significant_nearest`: these together, with the half unit, the symmetry of the sign and
  the normal form in which a value shows the result;
* `Decimal.significant_past_word`: an eighth at more places than there are words is zero.
-/

namespace Reckoner

open Rounding

/-! ## Decades -/

/-- The leading digit of `q` stands at `10 ^ e`. -/
structure InDecade (e : ℤ) (q : ℚ) : Prop where
  le : (10 : ℚ) ^ e ≤ |q|
  lt : |q| < 10 ^ (e + 1)

namespace InDecade

variable {d e : ℤ} {q r : ℚ}

theorem ne_zero (h : InDecade e q) : q ≠ 0 := by
  rintro rfl
  have hpos : (0 : ℚ) < 10 ^ e := by positivity
  exact absurd h.le (not_le.2 (by rwa [abs_zero]))

theorem abs (h : InDecade e q) : InDecade e |q| :=
  ⟨by rw [abs_abs]; exact h.le, by rw [abs_abs]; exact h.lt⟩

theorem bounds (h : InDecade e q) (hq : 0 ≤ q) : (10 : ℚ) ^ e ≤ q ∧ q < 10 ^ (e + 1) := by
  have habs := abs_of_nonneg hq
  exact ⟨habs ▸ h.le, habs ▸ h.lt⟩

/-- A power of ten at most as large as a number is one of its decade or of a lower one. -/
theorem le_of_zpow_le (h : InDecade e q) (hd : (10 : ℚ) ^ d ≤ |q|) : d ≤ e :=
  Int.lt_add_one_iff.1 ((zpow_lt_zpow_iff_right₀ (by norm_num)).1 (hd.trans_lt h.lt))

theorem unique (hd : InDecade d q) (he : InDecade e q) : d = e :=
  le_antisymm (he.le_of_zpow_le hd.le) (hd.le_of_zpow_le he.le)

/-- The decade of a quotient is the difference of the decades, or one less. -/
theorem div_cases (hq : InDecade d q) (hr : InDecade e r) {f : ℤ} (hf : InDecade f (q / r)) :
    f = d - e ∨ f = d - e - 1 := by
  have hr0 : 0 < |r| := abs_pos.2 hr.ne_zero
  have hbase : (10 : ℚ) ≠ 0 := by norm_num
  have habove : |q / r| < 10 ^ (d - e + 1) := by
    rw [abs_div, div_lt_iff₀ hr0]
    calc |q| < 10 ^ (d + 1) := hq.lt
      _ = 10 ^ (d - e + 1) * 10 ^ e := by rw [← zpow_add₀ hbase]; congr 1; ring
      _ ≤ 10 ^ (d - e + 1) * |r| := by gcongr; exact hr.le
  have hbelow : (10 : ℚ) ^ (d - e - 1) ≤ |q / r| := by
    rw [abs_div, le_div_iff₀ hr0]
    calc (10 : ℚ) ^ (d - e - 1) * |r| ≤ 10 ^ (d - e - 1) * 10 ^ (e + 1) := by gcongr; exact hr.lt.le
      _ = 10 ^ d := by rw [← zpow_add₀ hbase]; congr 1; ring
      _ ≤ |q| := hq.le
  have hle := hf.le_of_zpow_le hbelow
  have hlt : f < d - e + 1 :=
    (zpow_lt_zpow_iff_right₀ (by norm_num)).1 (hf.le.trans_lt habove)
  omega

/-- Moving the point moves the decade. -/
theorem mul_zpow (h : InDecade e q) (k : ℤ) : InDecade (e + k) (q * 10 ^ k) := by
  have hbase : (10 : ℚ) ≠ 0 := by norm_num
  have hpow : (0 : ℚ) < 10 ^ k := by positivity
  have habs : |q * 10 ^ k| = |q| * 10 ^ k := by rw [abs_mul, abs_of_pos hpow]
  constructor
  · rw [habs, zpow_add₀ hbase]
    exact mul_le_mul_of_nonneg_right h.le hpow.le
  · rw [habs, add_right_comm, zpow_add₀ hbase]
    exact mul_lt_mul_of_pos_right h.lt hpow

/-- A number rounded to an integer keeps its decade or becomes the power of ten above it. -/
theorem nearest_bounds {n : ℕ} {k : ℤ} (h : InDecade n q) (hq : 0 ≤ q) (hk : IsNearest k q) :
    10 ^ n ≤ k ∧ k ≤ 10 ^ (n + 1) := by
  obtain ⟨hlo, hhi⟩ := h.bounds hq
  exact ⟨hk.le_of_le (by exact_mod_cast hlo), hk.le_of_ge (by exact_mod_cast hhi.le)⟩

end InDecade

theorem exists_inDecade {q : ℚ} (hq : q ≠ 0) : ∃ e, InDecade e q := by
  have hlo := Int.zpow_log_le_self (b := 10) (by norm_num) (abs_pos.2 hq)
  have hhi := Int.lt_zpow_succ_log_self (b := 10) (by norm_num) |q|
  exact ⟨Int.log 10 |q|, by exact_mod_cast hlo, by exact_mod_cast hhi⟩

/-- The digit count tells the decade of a natural number. -/
theorem inDecade_natCast {n : ℕ} (hn : 0 < n) :
    InDecade ((Numeral.digitCount n : ℤ) - 1) n := by
  have hcount := Numeral.digitCount_pos n
  have hpred : (Numeral.digitCount n : ℤ) - 1 = (Numeral.digitCount n - 1 : ℕ) := by omega
  constructor
  · rw [Nat.abs_cast, hpred, zpow_natCast]
    exact_mod_cast Numeral.tenPow_digitCount_le hn
  · rw [Nat.abs_cast, sub_add_cancel, zpow_natCast]
    exact_mod_cast Numeral.lt_tenPow_digitCount n

/-! ## Places that are words -/

/-- A place, to the right of the point or to the left of it, whose number is a word of 32 bits, with
the `margin` places next to it on both sides. -/
def IsWordPlace (margin : ℕ) (place : ℤ) : Prop := place.natAbs + margin < wordCount

instance (margin : ℕ) (place : ℤ) : Decidable (IsWordPlace margin place) :=
  inferInstanceAs (Decidable (place.natAbs + margin < wordCount))

/-- A multiple of ten that a number is rounded to is still right one place earlier. -/
theorem Rounding.IsNearest.div_ten {k : ℤ} {q : ℚ} (h : IsNearest (k * 10) q) :
    IsNearest k (q / 10) := by
  obtain ⟨hlo, hhi⟩ := abs_le.1 h.abs_sub_le
  push_cast at hlo hhi
  refine .of_abs_sub_lt (abs_lt.2 ⟨?_, ?_⟩) <;> linarith

theorem abs_sign_cast {R : Type} [Ring R] [LinearOrder R] [IsStrictOrderedRing R] {q : ℚ}
    (hq : q ≠ 0) : |(SignType.sign q : R)| = 1 := by
  rcases lt_or_gt_of_ne hq with hneg | hpos
  · simp [sign_neg hneg]
  · simp [sign_pos hpos]

namespace Decimal

/-! ## Magnitudes -/

/-- The number of places is a word of 64 bits; there is room in it for those that count. -/
theorem significantPlaces_eq {n : ℕ} {lead : ℤ} (h : ((n : ℤ) - lead).natAbs ≤ wordCount) :
    ((n : ℤ) - lead).bmod sizeCount = n - lead := by
  have hword : wordCount = 0x100000000 := rfl
  have hsize : sizeCount = 0x10000000000000000 := rfl
  refine Int.bmod_eq_of_le ?_ ?_ <;> omega

/-- What the magnitude of a quotient is rounded to: the nearest multiple of the last kept place,
`n` digits from the leading one. -/
theorem exists_significantMagnitude {num den n : ℕ} (hnum : 0 < num) (hden : 0 < den) (hn : 0 < n)
    {e : ℤ} (he : InDecade e (num / den)) (hword : IsWordPlace 1 (n - 1 - e)) :
    ∃ h : ℕ, IsNearest h ((num / den : ℚ) * 10 ^ ((n : ℤ) - 1 - e)) ∧
      (significantMagnitude num den n).2.natAbs < wordCount ∧
      ((significantMagnitude num den n).1 : ℚ) * 10 ^ (-(significantMagnitude num den n).2) =
        h * 10 ^ (e - n + 1) := by
  rw [IsWordPlace] at hword
  refine ⟨nearestAt num den (n - 1 - e), isNearest_nearestAt num hden (by omega), ?_⟩
  have hlead := (inDecade_natCast hnum).div_cases (inDecade_natCast hden) he
  rw [significantMagnitude, significantPlaces_eq (by omega)]
  set places : ℤ := n - ((Numeral.digitCount num : ℤ) - Numeral.digitCount den) with hplaces
  set m := nearestAt num den places with hm
  have hnearest : IsNearest m (num / den * 10 ^ places) := isNearest_nearestAt num hden (by omega)
  have hscaled := he.mul_zpow places
  have hnonneg : (0 : ℚ) ≤ num / den * 10 ^ places := by positivity
  rcases hlead with hlead | hlead
  · -- the guess was too low: the result has a digit more than asked for
    have hlong : n < Numeral.digitCount m := by
      rw [show e + places = (n : ℕ) by omega] at hscaled
      rw [Numeral.lt_digitCount_iff hn]
      exact_mod_cast (hscaled.nearest_bounds hnonneg hnearest).1
    rw [if_pos hlong, show places - 1 = n - 1 - e by omega,
      show -((n : ℤ) - 1 - e) = e - n + 1 by omega]
    exact ⟨by omega, rfl⟩
  · rw [show (n : ℤ) - 1 - e = places by omega, show e - n + 1 = -places by omega, ← hm]
    split
    · -- the rounding carried: the result is a power of ten, and so is the second one
      rename_i hlong
      have hcarry : (m : ℤ) = 10 ^ (n - 1) * 10 := by
        rw [show e + places = (n - 1 : ℕ) by omega] at hscaled
        rw [← pow_succ]
        refine le_antisymm (hscaled.nearest_bounds hnonneg hnearest).2 ?_
        rw [Nat.sub_add_cancel hn]
        exact_mod_cast (Numeral.lt_digitCount_iff hn).1 hlong
      have hagain : (nearestAt num den (places - 1) : ℤ) = 10 ^ (n - 1) := by
        refine (isNearest_nearestAt num hden (by omega)).unique ?_
        rw [zpow_sub_one₀ (by norm_num), ← mul_assoc, ← div_eq_mul_inv]
        exact (hcarry ▸ hnearest).div_ten
      have hagain' : (nearestAt num den (places - 1) : ℚ) = 10 ^ (n - 1) := by exact_mod_cast hagain
      have hcarry' : (m : ℚ) = 10 ^ (n - 1) * 10 := by exact_mod_cast hcarry
      refine ⟨by omega, ?_⟩
      rw [hagain', hcarry', mul_assoc, ← zpow_one_add₀ (by norm_num)]
      congr 2
      ring
    · exact ⟨by omega, rfl⟩

/-! ## Signed numbers -/

/-- The sign is put back, and a negative number of places is worked into the mantissa. -/
theorem toRat_significant {q : ℚ} (hq : q ≠ 0) {n : ℕ}
    (hword : (significantMagnitude q.num.natAbs q.den (max n 1)).2.natAbs < wordCount) :
    (significant q n).toRat = SignType.sign q *
      ((significantMagnitude q.num.natAbs q.den (max n 1)).1 *
        10 ^ (-(significantMagnitude q.num.natAbs q.den (max n 1)).2)) := by
  rw [significant, if_neg (Rat.num_ne_zero.2 hq)]
  generalize significantMagnitude q.num.natAbs q.den (max n 1) = rounded at hword
  obtain ⟨m, places⟩ := rounded
  have hsign : ((if q.num < 0 then -(m : ℤ) else m : ℤ) : ℚ) = SignType.sign q * m := by
    rcases lt_or_gt_of_ne hq with hneg | hpos
    · simp [Rat.num_neg.2 hneg, sign_neg hneg]
    · simp [not_lt.2 (Rat.num_pos.2 hpos).le, sign_pos hpos]
  cases places with
  | ofNat places =>
    have hplaces : toWord places = places := toWord_of_lt hword
    simp only [toRat_eq_div, hplaces]
    rw [hsign, Int.ofNat_eq_natCast, zpow_neg, zpow_natCast, div_eq_mul_inv, mul_assoc]
  | negSucc excess =>
    have hunit : wordTenPow (excess + 1) = tenPow (excess + 1) := wordTenPow_of_lt hword
    simp only [toRat_eq_div, hunit, tenPow_eq, Int.cast_mul, hsign]
    rw [pow_zero, div_one, Int.neg_negSucc, zpow_natCast, mul_assoc]
    push_cast
    rfl

/-- The magnitude is rounded in its decade to the nearest multiple of the last kept place. -/
theorem exists_toRat_significant {q : ℚ} (n : ℕ) {e : ℤ} (he : InDecade e q)
    (hword : IsWordPlace 1 ((max n 1 : ℕ) - 1 - e)) :
    ∃ h : ℕ, IsNearest h (|q| * 10 ^ (((max n 1 : ℕ) : ℤ) - 1 - e)) ∧
      (significant q n).toRat = SignType.sign q * (h * 10 ^ (e - (max n 1 : ℕ) + 1)) := by
  have hq := he.ne_zero
  have habs := abs_eq_natAbs_div q
  have hmagnitude : InDecade e (q.num.natAbs / q.den) := by
    rw [← habs]
    exact he.abs
  obtain ⟨h, hnearest, hplaces, hvalue⟩ := exists_significantMagnitude
    (Int.natAbs_pos.2 (Rat.num_ne_zero.2 hq)) q.den_pos (lt_max_of_lt_right one_pos) hmagnitude
    hword
  exact ⟨h, by rwa [habs], by rw [toRat_significant hq hplaces, hvalue]⟩

theorem significant_neg (q : ℚ) (n : ℕ) : significant (-q) n = (significant q n).neg := by
  rw [significant, significant, Rat.neg_num, Rat.neg_den, Int.natAbs_neg]
  by_cases hq : q.num = 0
  · simp [hq, neg]
  · rw [if_neg (neg_ne_zero.2 hq), if_neg hq]
    generalize significantMagnitude q.num.natAbs q.den (max n 1) = rounded
    obtain ⟨m, places⟩ := rounded
    have hsign : (if -q.num < 0 then -(m : ℤ) else m) = -(if q.num < 0 then -(m : ℤ) else m) := by
      split_ifs <;> omega
    simp only [hsign]
    cases places with
    | ofNat places => rfl
    | negSucc excess => exact congrArg (fun m => (⟨m, 0⟩ : Decimal)) (Int.neg_mul _ _)

/-! ## The last kept place -/

section LastPlace

variable {q : ℚ} (n : ℕ) {e : ℤ}

/-- The result is no farther away than half a unit of the last kept place. -/
theorem abs_toRat_significant_sub_le (he : InDecade e q)
    (hword : IsWordPlace 1 ((max n 1 : ℕ) - 1 - e)) :
    |(significant q n).toRat - q| ≤ 1 / 2 * 10 ^ (e - (max n 1 : ℕ) + 1) := by
  obtain ⟨h, hnearest, hvalue⟩ := exists_toRat_significant n he hword
  generalize (max n 1 : ℕ) = places at hnearest hvalue ⊢
  set unit : ℚ := 10 ^ (e - places + 1) with hunit
  set y : ℚ := |q| * 10 ^ ((places : ℤ) - 1 - e) with hy
  have hpos : 0 < unit := by positivity
  have hmagnitude : |q| = y * unit := by
    rw [hy, hunit, mul_assoc, ← zpow_add₀ (by norm_num : (10 : ℚ) ≠ 0),
      show (places : ℤ) - 1 - e + (e - places + 1) = 0 by ring, zpow_zero, mul_one]
  calc |(significant q n).toRat - q|
      = |(SignType.sign q : ℚ) * (h * unit - |q|)| := by rw [hvalue, mul_sub, sign_mul_abs]
    _ = |h - y| * unit := by rw [abs_mul, abs_sign_cast he.ne_zero, one_mul, hmagnitude,
        ← sub_mul, abs_mul, abs_of_pos hpos]
    _ ≤ 1 / 2 * unit := by
        gcongr
        exact hnearest.abs_sub_le

/-- The rounded magnitude has the kept digits, or it is the next power of ten. -/
theorem significant_bounds (he : InDecade e q) {h : ℕ}
    (hnearest : IsNearest h (|q| * 10 ^ (((max n 1 : ℕ) : ℤ) - 1 - e))) :
    10 ^ (max n 1 - 1) ≤ h ∧ h ≤ 10 ^ (max n 1) := by
  have hn : 1 ≤ max n 1 := le_max_right n 1
  generalize (max n 1 : ℕ) = places at hn hnearest ⊢
  have hscaled := he.abs.mul_zpow (places - 1 - e)
  rw [show e + ((places : ℤ) - 1 - e) = (places - 1 : ℕ) by omega] at hscaled
  have hbounds := hscaled.nearest_bounds (by positivity) hnearest
  rw [Nat.sub_add_cancel hn] at hbounds
  exact_mod_cast hbounds

/-- Rounding does not leave the decade, except for the power of ten above it. -/
theorem abs_toRat_significant_bounds (he : InDecade e q)
    (hword : IsWordPlace 1 ((max n 1 : ℕ) - 1 - e)) :
    (10 : ℚ) ^ e ≤ |(significant q n).toRat| ∧ |(significant q n).toRat| ≤ 10 ^ (e + 1) := by
  obtain ⟨h, hnearest, hvalue⟩ := exists_toRat_significant n he hword
  obtain ⟨hlow, hhigh⟩ := significant_bounds n he hnearest
  have hn : 1 ≤ max n 1 := le_max_right n 1
  have habs : |(significant q n).toRat| = h * 10 ^ (e - (max n 1 : ℕ) + 1) := by
    rw [hvalue, abs_mul, abs_sign_cast he.ne_zero, one_mul, abs_of_nonneg (by positivity)]
  generalize (max n 1 : ℕ) = places at hn hlow hhigh habs
  have hunit (k : ℕ) : (10 : ℚ) ^ (e - places + 1 + k) = 10 ^ k * 10 ^ (e - places + 1) := by
    rw [add_comm, zpow_add₀ (by norm_num), zpow_natCast]
  rw [habs]
  constructor
  · rw [show e = e - places + 1 + (places - 1 : ℕ) by omega, hunit,
      show e - places + 1 + (places - 1 : ℕ) - places + 1 = e - places + 1 by omega]
    gcongr
    exact_mod_cast hlow
  · rw [show e + 1 = e - places + 1 + (places : ℕ) by omega, hunit]
    gcongr
    exact_mod_cast hhigh

theorem zpow_le_toRat_significant (hq : 0 < q) (he : InDecade e q)
    (hword : IsWordPlace 1 ((max n 1 : ℕ) - 1 - e)) :
    (10 : ℚ) ^ e ≤ (significant q n).toRat := by
  obtain ⟨h, -, hvalue⟩ := exists_toRat_significant n he hword
  have hnonneg : 0 ≤ (significant q n).toRat := by
    rw [hvalue, sign_pos hq, SignType.coe_one, one_mul]
    positivity
  exact abs_of_nonneg hnonneg ▸ (abs_toRat_significant_bounds n he hword).1

/-- The result is in the decade of the number, or in the next one if the rounding carried. -/
theorem inDecade_significant (he : InDecade e q)
    (hword : IsWordPlace 1 ((max n 1 : ℕ) - 1 - e)) :
    InDecade e (significant q n).toRat ∨ InDecade (e + 1) (significant q n).toRat := by
  obtain ⟨hlow, hhigh⟩ := abs_toRat_significant_bounds n he hword
  rcases hhigh.lt_or_eq with hlt | heq
  · exact .inl ⟨hlow, hlt⟩
  · refine .inr ⟨heq.ge, ?_⟩
    rw [heq]
    exact zpow_lt_zpow_right₀ (by norm_num) (by omega)

end LastPlace

/-! ## Few digits -/

/-- A result has no more digits than were asked for. -/
theorem exists_digits_significant {q : ℚ} (n : ℕ) {e : ℤ} (he : InDecade e q)
    (hword : IsWordPlace 1 ((max n 1 : ℕ) - 1 - e)) :
    ∃ k j : ℤ, |k| < 10 ^ max n 1 ∧ (significant q n).toRat = k * 10 ^ j := by
  have hn : 1 ≤ max n 1 := le_max_right n 1
  have hq := he.ne_zero
  obtain ⟨h, hnearest, hvalue⟩ := exists_toRat_significant n he hword
  rcases (significant_bounds n he hnearest).2.lt_or_eq with hlt | heq
  · refine ⟨SignType.sign q * h, e - (max n 1 : ℕ) + 1, ?_, ?_⟩
    · rw [abs_mul, abs_sign_cast hq, one_mul, Nat.abs_cast]
      exact_mod_cast hlt
    · rw [hvalue]
      push_cast
      ring
  · -- the rounding carried into a new decade, where one digit is enough
    refine ⟨SignType.sign q, e + 1, ?_, ?_⟩
    · rw [abs_sign_cast hq]
      exact_mod_cast Nat.one_lt_pow (by omega) (by norm_num)
    · rw [hvalue, heq]
      push_cast
      rw [← zpow_natCast, ← zpow_add₀ (by norm_num)]
      congr 2
      push_cast
      ring

/-- A number that has no more digits than are asked for is left as it is: the last kept place is
not above its last digit, so nothing is dropped. -/
theorem toRat_significant_of_digits {k j e : ℤ} {n : ℕ} (hk : |k| < 10 ^ max n 1)
    (he : InDecade e (k * 10 ^ j)) (hword : IsWordPlace 1 ((max n 1 : ℕ) - 1 - e)) :
    (significant (k * 10 ^ j) n).toRat = k * 10 ^ j := by
  obtain ⟨h, hnearest, hvalue⟩ := exists_toRat_significant n he hword
  set q : ℚ := k * 10 ^ j with hq
  generalize (max n 1 : ℕ) = places at hk hnearest hvalue
  have hbase : (10 : ℚ) ≠ 0 := by norm_num
  have habs : |q| = |k| * 10 ^ j := by
    rw [hq, abs_mul, abs_of_pos (by positivity : (0 : ℚ) < 10 ^ j)]
    push_cast
    rfl
  have hdecade : e < places + j := by
    have hlt : |q| < 10 ^ ((places : ℤ) + j) := by
      rw [habs, zpow_add₀ hbase, zpow_natCast]
      gcongr
      exact_mod_cast hk
    exact (zpow_lt_zpow_iff_right₀ (by norm_num)).1 (he.le.trans_lt hlt)
  obtain ⟨t, ht⟩ : ∃ t : ℕ, j + ((places : ℤ) - 1 - e) = t :=
    Int.eq_ofNat_of_zero_le (by omega)
  have hinteger : |q| * 10 ^ ((places : ℤ) - 1 - e) = (|k| * 10 ^ t : ℤ) := by
    rw [habs, mul_assoc, ← zpow_add₀ hbase, ht]
    push_cast
    rw [zpow_natCast]
  have hexact : (h : ℚ) = |q| * 10 ^ ((places : ℤ) - 1 - e) := by
    rw [hinteger] at hnearest ⊢
    exact_mod_cast hnearest.unique (isNearest_intCast _)
  rw [hvalue, hexact, mul_assoc |q|, ← zpow_add₀ hbase,
    show (places : ℤ) - 1 - e + (e - places + 1) = 0 by ring, zpow_zero, mul_one, sign_mul_abs]

/-- Rounding twice is rounding once; the carry of the first rounding may need a place more. -/
theorem toRat_significant_significant {q : ℚ} (n : ℕ) {e : ℤ} (he : InDecade e q)
    (hword : IsWordPlace 2 ((max n 1 : ℕ) - 1 - e)) :
    (significant (significant q n).toRat n).toRat = (significant q n).toRat := by
  rw [IsWordPlace] at hword
  have hinner : IsWordPlace 1 ((max n 1 : ℕ) - 1 - e) := by
    rw [IsWordPlace]
    omega
  have hcarried : IsWordPlace 1 ((max n 1 : ℕ) - 1 - (e + 1)) := by
    rw [IsWordPlace]
    omega
  obtain ⟨k, j, hk, hdigits⟩ := exists_digits_significant n he hinner
  have hresult := inDecade_significant n he hinner
  rw [hdigits] at hresult ⊢
  rcases hresult with hsame | hnext
  · exact toRat_significant_of_digits hk hsame hinner
  · exact toRat_significant_of_digits hk hnext hcarried

/-! ## The normal form -/

theorem normalize_scale_or (d : Decimal) :
    d.normalize.scale = 0 ∨ d.normalize.IsNormal := by
  rw [normalize]
  split
  · exact .inl rfl
  · rcases Nat.eq_zero_or_pos (stripZeros d.mantissa d.scale).scale with hzero | hpos
    · exact .inl hzero
    · exact .inr ⟨hpos, (stripZeros_scale_or _ _).resolve_left hpos.ne'⟩

/-- **Significant digits.**  A number other than zero has one decade `e`.  The result changes its
sign with the number, and values show it in normal form.  Where the last of `n` places and those
next to it are words, the result is in that decade the magnitude rounded to the nearest multiple
of that place, a half to the even one, with the sign put back; `n = 0` acts as one.  It then has at
most `n` digits, is at most half a unit away, and is left alone when it is rounded again. -/
theorem significant_nearest {q : ℚ} (hq : q ≠ 0) (n : ℕ) :
    significant (-q) n = (significant q n).neg ∧
    ((Value.approximate q n).Canonical ∧
      (Value.approximate q n).toRat = (significant q n).toRat) ∧
    ((((Value.ratio q).toDecimal n).scale = 0 ∨ ((Value.ratio q).toDecimal n).IsNormal) ∧
      ((Value.ratio q).toDecimal n).toRat = (significant q n).toRat) ∧
    ∃ e : ℤ, InDecade e q ∧ (∀ e', InDecade e' q → e' = e) ∧
      (IsWordPlace 2 ((max n 1 : ℕ) - 1 - e) →
        (∃ h : ℤ, IsNearest h (|q| * 10 ^ (((max n 1 : ℕ) : ℤ) - 1 - e)) ∧
          ((significant q n).mantissa : ℚ) * 10 ^ (-((significant q n).scale : ℤ)) =
            SignType.sign q * (h * 10 ^ (e - (max n 1 : ℕ) + 1))) ∧
        (∃ k j : ℤ, |k| < 10 ^ max n 1 ∧ (significant q n).toRat = k * 10 ^ j) ∧
        |(significant q n).toRat - q| ≤ 1 / 2 * 10 ^ (e - (max n 1 : ℕ) + 1) ∧
        (significant (significant q n).toRat n).toRat = (significant q n).toRat) := by
  obtain ⟨e, he⟩ := exists_inDecade hq
  refine ⟨significant_neg q n, ⟨Value.canonical_approximate q n, Value.toRat_ofDecimal _⟩,
    ⟨normalize_scale_or _, toRat_normalize _⟩, e, he, fun e' he' => he'.unique he, fun hword => ?_⟩
  have hinner : IsWordPlace 1 ((max n 1 : ℕ) - 1 - e) := by
    rw [IsWordPlace] at hword ⊢
    omega
  obtain ⟨h, hnearest, hvalue⟩ := exists_toRat_significant n he hinner
  refine ⟨⟨h, hnearest, ?_⟩, exists_digits_significant n he hinner,
    abs_toRat_significant_sub_le n he hinner, toRat_significant_significant n he hword⟩
  rw [zpow_neg, zpow_natCast, ← div_eq_mul_inv, ← toRat_eq_div]
  exact hvalue

/-- Four digits of a number just below ten: the rounding carries. -/
theorem significant_nearest_carry :
    (-24999 / 2500 : ℚ) ≠ 0 ∧ significant (-24999 / 2500) 4 = ⟨-1000, 2⟩ ∧
      ∃ e : ℤ, InDecade e (-24999 / 2500) ∧ IsWordPlace 2 ((max 4 1 : ℕ) - 1 - e) ∧
        |(significant (-24999 / 2500) 4).toRat - -24999 / 2500| ≤ 1 / 2 * 10 ^ (e - 4 + 1) := by
  have hq : (-24999 / 2500 : ℚ) ≠ 0 := by norm_num
  have he : InDecade 0 (-24999 / 2500) := by constructor <;> norm_num [abs_div]
  have hword : IsWordPlace 2 ((max 4 1 : ℕ) - 1 - 0) := by decide
  obtain ⟨-, -, -, e, -, hunique, hrounded⟩ := significant_nearest hq 4
  obtain rfl := hunique 0 he
  obtain ⟨-, -, hhalf, -⟩ := hrounded hword
  exact ⟨hq, by decide +kernel, 0, he, hword, hhalf⟩

/-- An eighth has three digits, which is fewer than were asked for; but the place of the last digit
asked for does not fit a word, and what is left of its number is zero. -/
theorem significant_past_word :
    significant (1 / 8) wordCount = ⟨0, 0⟩ ∧
      ¬(∃ e : ℤ, InDecade e (1 / 8) ∧ ∃ h : ℤ,
        IsNearest h (|1 / 8| * 10 ^ ((wordCount : ℤ) - 1 - e)) ∧
        ((significant (1 / 8) wordCount).mantissa : ℚ) *
            10 ^ (-((significant (1 / 8) wordCount).scale : ℤ)) =
          SignType.sign (1 / 8 : ℚ) * (h * 10 ^ (e - wordCount + 1))) := by
  have hresult : significant (1 / 8) wordCount = ⟨0, 0⟩ := by decide +kernel
  refine ⟨hresult, ?_⟩
  rintro ⟨e, he, h, hnearest, hvalue⟩
  have hdecade : InDecade (-1) (1 / 8) := by constructor <;> norm_num [abs_div]
  obtain rfl := he.unique hdecade
  have hsign : (SignType.sign (1 / 8 : ℚ) : ℚ) = 1 := by
    rw [sign_pos (by norm_num), SignType.coe_one]
  have hunit (k : ℤ) : (10 : ℚ) ^ k ≠ 0 := by positivity
  have hzero : (h : ℚ) = 0 := by
    rw [hresult, hsign, Int.cast_zero, zero_mul, one_mul, eq_comm, mul_eq_zero] at hvalue
    exact hvalue.resolve_right (hunit _)
  -- an eighth of this power of ten is far from zero
  have hlarge : (10 : ℚ) ^ (1 : ℤ) ≤ 10 ^ ((wordCount : ℤ) - 1 - -1) :=
    zpow_le_zpow_right₀ (by norm_num) (by decide)
  have hclose := (abs_le.1 hnearest.abs_sub_le).1
  rw [hzero, abs_of_pos (by norm_num)] at hclose
  rw [zpow_one] at hlarge
  linarith

end Decimal
end Reckoner

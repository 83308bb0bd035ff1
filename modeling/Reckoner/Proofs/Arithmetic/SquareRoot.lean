import Mathlib
import Reckoner.Proofs.Arithmetic.Powers
import Reckoner.Proofs.FixedPoint.Units
import Reckoner.Proofs.Value.Significant

/-!
# The error of a square root

A square root that is not rational is cut off at a number of places: `le_approximateSqrt_iff` says
which multiples of the last place are not above it.  There is a place for each digit of the
denominator, so the root is never below the place that the denominator alone takes up, and what is
cut off is small beside the root however small the root is (`lt_approximateSqrt_sq`).  All bounds
are told by squares, in rational numbers.

`sqrt_within_guard_digits` states the relative error of the root, and after rounding to significant
digits the error in units of the last of them.  The radicand is scaled by twice the places, which
have to be a word of 32 bits (`sqrt_past_word`).
-/

namespace Reckoner
namespace Root

/-! ## The root that is cut off -/

/-- The integer part of a root at `w` places: the multiples of the last place whose square is not
above. -/
theorem le_floorRoot_iff {x : ℚ} (hx : 0 ≤ x) (w k : ℕ) :
    k ≤ floorRoot 2 (x.num.natAbs * tenPow (2 * w) / x.den) ↔ (k / 10 ^ w : ℚ) ^ 2 ≤ x := by
  have hden : (0 : ℚ) < x.den := Nat.cast_pos.2 x.den_pos
  have hx' : x = x.num.natAbs / x.den :=
    (abs_of_nonneg hx).symm.trans (Rounding.abs_eq_natAbs_div x)
  rw [floorRoot_eq_nthRoot two_ne_zero, Nat.le_nthRoot_iff two_ne_zero,
    Nat.le_div_iff_mul_le x.den_pos, tenPow_eq]
  conv_rhs => rw [hx']
  rw [div_pow, ← pow_mul, mul_comm w, div_le_div_iff₀ (by positivity) hden]
  exact_mod_cast Iff.rfl

/-- The places a root is cut off at. -/
def places (x : ℚ) (p : ℕ) : ℕ := p + 12 + Numeral.digitCount x.den

section Approximate

variable {x : ℚ} {p : ℕ} (hword : 2 * places x p < wordCount)
include hword

theorem approximateSqrt_eq :
    approximateSqrt x p = floorRoot 2 (x.num.natAbs * tenPow (2 * places x p) / x.den) /
      10 ^ places x p := by
  have hroot : approximateSqrt x p = FixedPoint.toRat
      (floorRoot 2 (x.num.natAbs * wordTenPow (2 * places x p) / x.den)) (places x p) := rfl
  rw [hroot, FixedPoint.toRat_eq, wordTenPow_of_lt hword, toWord_of_lt (by omega), Int.cast_natCast]

/-- A multiple of the last place is not above the approximation if it is not above the root. -/
theorem le_approximateSqrt_iff (hx : 0 ≤ x) (k : ℕ) :
    (k / 10 ^ places x p : ℚ) ≤ approximateSqrt x p ↔ (k / 10 ^ places x p : ℚ) ^ 2 ≤ x := by
  rw [approximateSqrt_eq hword, div_le_div_iff_of_pos_right (by positivity), Nat.cast_le,
    le_floorRoot_iff hx]

theorem approximateSqrt_sq_le (hx : 0 ≤ x) : approximateSqrt x p ^ 2 ≤ x := by
  rw [approximateSqrt_eq hword]
  exact (le_floorRoot_iff hx _ _).1 le_rfl

/-- The approximation is not below the place that the digits of the denominator take up. -/
theorem le_approximateSqrt (hx : 0 < x) :
    1 / 10 ^ Numeral.digitCount x.den ≤ approximateSqrt x p := by
  set c := Numeral.digitCount x.den with hc
  have hplace : (1 / 10 ^ c : ℚ) = (10 ^ (p + 12) : ℕ) / 10 ^ places x p := by
    rw [places, ← hc, div_eq_div_iff (by positivity) (by positivity)]
    push_cast
    ring
  have hx' : (1 / 10 ^ c : ℚ) ≤ x := by
    have hden : (0 : ℚ) < x.den := Nat.cast_pos.2 x.den_pos
    have hnum : (1 : ℚ) ≤ x.num := by exact_mod_cast Int.add_one_le_of_lt (Rat.num_pos.2 hx)
    have hdigits : (x.den : ℚ) ≤ 10 ^ c := by
      exact_mod_cast (Numeral.lt_tenPow_digitCount x.den).le
    calc (1 / 10 ^ c : ℚ) ≤ 1 / x.den := one_div_le_one_div_of_le hden hdigits
      _ ≤ x.num / x.den := by gcongr
      _ = x := Rat.num_div_den x
  rw [hplace, le_approximateSqrt_iff hword hx.le, ← hplace]
  have hone : (1 / 10 ^ c : ℚ) ≤ 1 := div_le_one_of_le₀ (one_le_pow₀ (by norm_num)) (by positivity)
  exact (pow_le_of_le_one (by positivity) hone two_ne_zero).trans hx'

theorem approximateSqrt_pos (hx : 0 < x) : 0 < approximateSqrt x p :=
  lt_of_lt_of_le (by positivity) (le_approximateSqrt hword hx)

/-- One unit of the last place more, and the approximation is above the root.  That unit is small
beside the approximation. -/
theorem lt_approximateSqrt_sq (hx : 0 < x) :
    x < (approximateSqrt x p * (1 + 1 / 10 ^ (p + 12))) ^ 2 := by
  set r := approximateSqrt x p with hr
  have habove : x < (r + 1 / 10 ^ places x p) ^ 2 := by
    rw [hr, approximateSqrt_eq hword, ← add_div, ← Nat.cast_add_one, ← not_le,
      ← le_floorRoot_iff hx.le]
    exact Nat.not_succ_le_self _
  have hunit : (1 / 10 ^ places x p : ℚ) ≤ r * (1 / 10 ^ (p + 12)) := by
    rw [places, pow_add, mul_comm r, ← one_div_mul_one_div]
    gcongr
    exact le_approximateSqrt hword hx
  have hpos := approximateSqrt_pos hword hx
  calc x < (r + 1 / 10 ^ places x p) ^ 2 := habove
    _ ≤ (r + r * (1 / 10 ^ (p + 12))) ^ 2 := by gcongr
    _ = (r * (1 + 1 / 10 ^ (p + 12))) ^ 2 := by rw [mul_one_add]

/-- The error seen from the root. -/
theorem mul_lt_approximateSqrt_sq (hx : 0 < x) :
    x * (1 - 1 / 10 ^ (p + 12)) ^ 2 < approximateSqrt x p ^ 2 := by
  set ε : ℚ := 1 / 10 ^ (p + 12) with hε
  have hpos : 0 < ε := by positivity
  have hlt : ε < 1 := (div_lt_one (by positivity)).2 (one_lt_pow₀ (by norm_num) (by omega))
  have hfactor : ((1 + ε) * (1 - ε)) ^ 2 ≤ 1 := by
    refine pow_le_one₀ (mul_nonneg (by linarith) (by linarith)) ?_
    linarith [mul_self_nonneg ε]
  calc x * (1 - ε) ^ 2 < (approximateSqrt x p * (1 + ε)) ^ 2 * (1 - ε) ^ 2 := by
        have : 0 < 1 - ε := by linarith
        gcongr
        exact lt_approximateSqrt_sq hword hx
    _ = approximateSqrt x p ^ 2 * ((1 + ε) * (1 - ε)) ^ 2 := by ring
    _ ≤ approximateSqrt x p ^ 2 := mul_le_of_le_one_right (sq_nonneg _) hfactor

/-- The root and its approximation have the same leading place. -/
theorem lt_zpow_sq (hx : 0 < x) {j : ℤ} (hj : approximateSqrt x p < 10 ^ j) :
    x < ((10 : ℚ) ^ j) ^ 2 := by
  have hbase : (10 : ℚ) ≠ 0 := by norm_num
  -- below `10 ^ j` there is the last place, so `10 ^ j` is a multiple of it
  have hplaces : -(places x p : ℤ) ≤ j := by
    have hlow : (10 : ℚ) ^ (-(Numeral.digitCount x.den : ℤ)) < 10 ^ j := by
      rw [zpow_neg, zpow_natCast, ← one_div]
      exact (le_approximateSqrt hword hx).trans_lt hj
    have hlt := (zpow_lt_zpow_iff_right₀ (by norm_num)).1 hlow
    rw [places]
    omega
  obtain ⟨k, hk⟩ := Int.eq_ofNat_of_zero_le (show 0 ≤ j + places x p by omega)
  have hmultiple : (10 : ℚ) ^ j = (10 ^ k : ℕ) / 10 ^ places x p := by
    rw [eq_div_iff (by positivity), ← zpow_natCast, ← zpow_add₀ hbase, hk, Nat.cast_pow]
    exact zpow_natCast _ _
  rw [hmultiple, ← not_le, ← le_approximateSqrt_iff hword hx.le, not_le, ← hmultiple]
  exact hj

end Approximate

/-! ## The root -/

theorem sqrt_of_neg {x : ℚ} (hx : x < 0) (p : ℕ) :
    sqrt x p = .error (.arithmetic .negativeSquareRoot) :=
  if_pos (Rat.num_neg.2 hx)

theorem perfectRat?_two_of_neg {x : ℚ} (hx : x < 0) : perfectRat? 2 x = none := by
  have hnum : perfectInt? 2 x.num = none := by
    rw [perfectInt?, if_neg two_ne_zero, if_pos (Rat.num_neg.2 hx), if_pos rfl]
  rw [perfectRat?, hnum]

theorem perfectRat?_two_eq_none_iff {x : ℚ} (hx : 0 ≤ x) :
    perfectRat? 2 x = none ↔ ¬ IsSquare x := by
  rw [Option.eq_none_iff_forall_ne_some, isSquare_iff_exists_sq, not_exists]
  simp only [ne_eq, perfectRat?_eq_some_iff two_ne_zero hx]
  constructor
  · rintro h r rfl
    exact h |r| ⟨abs_nonneg r, sq_abs r⟩
  · rintro h r ⟨-, rfl⟩
    exact h r rfl

/-- The root of a square is exact; all others are cut off. -/
theorem sqrt_cases {x : ℚ} (hx : 0 ≤ x) (p : ℕ) :
    (∃ r, 0 ≤ r ∧ r ^ 2 = x ∧ sqrt x p = .ok r) ∨
      (¬ IsSquare x ∧ perfectRat? 2 x = none ∧ sqrt x p = .ok (approximateSqrt x p)) := by
  have hnum : ¬ x.num < 0 := not_lt.2 (Rat.num_nonneg.2 hx)
  cases hroot : perfectRat? 2 x with
  | none =>
    exact .inr ⟨(perfectRat?_two_eq_none_iff hx).1 hroot, rfl, by rw [sqrt, if_neg hnum, hroot]⟩
  | some r =>
    obtain ⟨hr, hsq⟩ := (perfectRat?_eq_some_iff two_ne_zero hx).1 hroot
    exact .inl ⟨r, hr, hsq, by rw [sqrt, if_neg hnum, hroot]⟩

/-! ## The rounded root -/

/-- The root of `x` is at most `δ` away from `s`, told by squares. -/
structure BracketsSqrt (s δ x : ℚ) : Prop where
  le : δ ≤ s
  sq_le : (s - δ) ^ 2 ≤ x
  le_sq : x ≤ (s + δ) ^ 2

/-- Bounds of the root that are themselves within `δ`. -/
theorem BracketsSqrt.of_bounds {s δ x a b : ℚ} (hδ : δ ≤ s) (ha : a ^ 2 ≤ x) (hsa : s - δ ≤ a)
    (hb : x ≤ b ^ 2) (hbs : b ≤ s + δ) (hb0 : 0 ≤ b) : BracketsSqrt s δ x where
  le := hδ
  sq_le := (pow_le_pow_left₀ (sub_nonneg.2 hδ) hsa 2).trans ha
  le_sq := hb.trans (pow_le_pow_left₀ hb0 hbs 2)

/-- Half a unit of the last of `p` places in the decade `e`, and a little for the root itself. -/
def tolerance (p : ℕ) (e : ℤ) : ℚ := (1 / 2 + 1 / 10 ^ 11) * 10 ^ (e - p + 1)

theorem tolerance_nonneg (p : ℕ) (e : ℤ) : 0 ≤ tolerance p e := by
  rw [tolerance]
  positivity

theorem tolerance_le {p : ℕ} (hp : 1 ≤ p) (e : ℤ) : tolerance p e ≤ 10 ^ e := by
  calc tolerance p e ≤ 1 * 10 ^ (e - p + 1) := by
        rw [tolerance]
        gcongr
        norm_num
    _ ≤ 10 ^ e := by
        rw [one_mul]
        exact zpow_le_zpow_right₀ (by norm_num) (by omega)

/-- What the rounding and the root are wrong by together. -/
theorem bracketsSqrt_significant {x : ℚ} (hx : 0 < x) {p : ℕ} (hp : 1 ≤ p) {e : ℤ}
    (he : InDecade e (approximateSqrt x p)) (hword : 2 * places x p < wordCount)
    (hplace : IsWordPlace 1 (p - 1 - e)) :
    BracketsSqrt (Decimal.significant (approximateSqrt x p) p).toRat (tolerance p e) x := by
  set r := approximateSqrt x p with hr
  set s := (Decimal.significant r p).toRat with hs
  set unit : ℚ := 10 ^ (e - p + 1) with hunit
  have hpos : 0 < r := approximateSqrt_pos hword hx
  have hunit0 : 0 < unit := by positivity
  have htolerance : tolerance p e = 1 / 2 * unit + 1 / 10 ^ 11 * unit := add_mul _ _ _
  obtain ⟨hlo, hhi⟩ : -(1 / 2 * unit) ≤ s - r ∧ s - r ≤ 1 / 2 * unit := by
    have h := Decimal.abs_toRat_significant_sub_le p he
    rw [max_eq_left hp] at h
    exact abs_le.1 (h hplace)
  have hcut : r * (1 / 10 ^ (p + 12)) ≤ 1 / 10 ^ 11 * unit := by
    have hlt := (he.bounds hpos.le).2
    calc r * (1 / 10 ^ (p + 12)) ≤ 10 ^ (e + 1) * (1 / 10 ^ (p + 12)) := by gcongr
      _ = 1 / 10 ^ 12 * unit := by
        rw [hunit, sub_add_eq_add_sub, zpow_sub₀ (by norm_num), zpow_natCast, pow_add]
        field_simp
      _ ≤ 1 / 10 ^ 11 * unit := by
        gcongr
        · norm_num
        · norm_num
  have hlow : (10 : ℚ) ^ e ≤ s := by
    have h := Decimal.zpow_le_toRat_significant p hpos he
    rw [max_eq_left hp] at h
    exact h hplace
  refine .of_bounds ((tolerance_le hp e).trans hlow) (approximateSqrt_sq_le hword hx.le) ?_
    (lt_approximateSqrt_sq hword hx).le ?_ (by positivity)
  · rw [htolerance]
    have : 0 ≤ 1 / 10 ^ 11 * unit := by positivity
    linarith
  · rw [htolerance, mul_one_add]
    linarith

theorem bracketsSqrt_exact {r : ℚ} {p : ℕ} (hp : 1 ≤ p) {e : ℤ} (hr : (10 : ℚ) ^ e ≤ r) :
    BracketsSqrt r (tolerance p e) (r ^ 2) := by
  have htolerance := tolerance_nonneg p e
  have hpos : 0 < r := lt_of_lt_of_le (by positivity) hr
  exact .of_bounds ((tolerance_le hp e).trans hr) le_rfl (by linarith) le_rfl (by linarith) hpos.le

/-- The standard function gives an exact root as it is and rounds all others. -/
theorem standard_sqrt {options : Options} (hp : 1 ≤ options.precision) {v : Value}
    (hv : 0 ≤ v.toRat) :
    ∃ s : Value, Standard.sqrt options v = .ok s ∧ s.Canonical ∧
      (IsSquare v.toRat → 0 ≤ s.toRat ∧ s.toRat * s.toRat = v.toRat) ∧
      (0 < v.toRat → 2 * places v.toRat options.precision < wordCount →
        ∃ e : ℤ, ((10 : ℚ) ^ e) ^ 2 ≤ v.toRat ∧ v.toRat < (10 ^ (e + 1)) ^ 2 ∧
          (IsWordPlace 1 (options.precision - 1 - e) → (10 : ℚ) ^ e ≤ s.toRat ∧
            BracketsSqrt s.toRat (tolerance options.precision e) v.toRat)) := by
  rcases sqrt_cases hv options.precision with ⟨r, hr, hsq, -⟩ | ⟨hsquare, hroot, hsqrt⟩
  · have hyields : Arithmetic.Yields (Standard.sqrt options v) r :=
      Arithmetic.yields_sqrt hr hsq.symm
    obtain ⟨s, hs, hcanonical, rfl⟩ := hyields
    refine ⟨s, hs, hcanonical, fun _ => ⟨hr, by rw [← sq, hsq]⟩, fun hpos _ => ?_⟩
    have hs0 : 0 < s.toRat := by
      refine hr.lt_of_ne' fun hzero => ?_
      rw [← hsq, hzero] at hpos
      norm_num at hpos
    obtain ⟨e, he⟩ := exists_inDecade hs0.ne'
    obtain ⟨hlo, hhi⟩ := he.bounds hr
    rw [← hsq]
    exact ⟨e, by gcongr, by gcongr, fun _ => ⟨hlo, bracketsSqrt_exact hp hlo⟩⟩
  · have hrounded : Standard.sqrt options v =
        .ok (.approximate (approximateSqrt v.toRat options.precision) options.precision) := by
      rw [Standard.sqrt, hroot]
      simp only [hsqrt]
      rfl
    refine ⟨_, hrounded, Value.canonical_approximate _ _, fun h => absurd h hsquare,
      fun hpos hword => ?_⟩
    have hr := approximateSqrt_pos hword hpos
    obtain ⟨e, he⟩ := exists_inDecade hr.ne'
    obtain ⟨hlo, hhi⟩ := he.bounds hr.le
    refine ⟨e, ?_, lt_zpow_sq hword hpos hhi, fun hplace => ?_⟩
    · exact (pow_le_pow_left₀ (by positivity) hlo 2).trans (approximateSqrt_sq_le hword hv)
    · have hlow := Decimal.zpow_le_toRat_significant options.precision hr he
      rw [max_eq_left hp] at hlow
      rw [Value.approximate, Value.toRat_ofDecimal]
      exact ⟨hlow hplace, bracketsSqrt_significant hpos hp he hword hplace⟩

/-- **Square roots.**  The root of a negative number is a fault.  Any other number has a root: it
is exact for the square of a rational, and for no other number.  As long as twice the places it is
cut off at are a word of 32 bits, the others get a root that is too small by less than one part in
`10 ^ (p + 12)`.  The standard function rounds it to `p` digits, and ends up no farther from the
true root than half a unit of the last of them and a hundred-billionth: there `e` is the decade of
the root, which is not above that of the result, and the last of these digits has to be at a place
that is a word. -/
theorem sqrt_within_guard_digits (x : ℚ) (p : ℕ) :
    (x < 0 → sqrt x p = .error (.arithmetic .negativeSquareRoot)) ∧
    (0 ≤ x → ∃ r, sqrt x p = .ok r ∧ (r * r = x ↔ IsSquare x) ∧
      (¬ IsSquare x → 2 * places x p < wordCount →
        0 < r ∧ r * r < x ∧ x * (1 - 1 / 10 ^ (p + 12)) ^ 2 < r * r)) ∧
    ∃ f, Standard.functions.find? (fun f => f.name = "sqrt") = some f ∧
      ∀ (options : Options) (v : Value),
        (v.toRat < 0 →
          (f.call options [v]).value = .error (.arithmetic .negativeSquareRoot)) ∧
        (0 ≤ v.toRat → 1 ≤ options.precision →
          ∃ s : Value, (f.call options [v]).value = .ok s ∧ s.Canonical ∧
            (IsSquare v.toRat → 0 ≤ s.toRat ∧ s.toRat * s.toRat = v.toRat) ∧
            (0 < v.toRat → 2 * places v.toRat options.precision < wordCount →
              ∃ e : ℤ, ((10 : ℚ) ^ e) ^ 2 ≤ v.toRat ∧ v.toRat < (10 ^ (e + 1)) ^ 2 ∧
                (IsWordPlace 1 (options.precision - 1 - e) → (10 : ℚ) ^ e ≤ s.toRat ∧
                  BracketsSqrt s.toRat
                    ((1 / 2 + 1 / 10 ^ 11) * 10 ^ (e - options.precision + 1)) v.toRat))) := by
  refine ⟨(sqrt_of_neg · p), fun hx => ?_,
    .unary "sqrt" Standard.sqrt, rfl, fun options v => ⟨fun hv => ?_, fun hv hp => ?_⟩⟩
  · rcases sqrt_cases hx p with ⟨r, hr, rfl, hsqrt⟩ | ⟨hsquare, -, hsqrt⟩
    · exact ⟨r, hsqrt, iff_of_true (sq r).symm (IsSquare.sq r), fun h => absurd (IsSquare.sq r) h⟩
    · have hpos : 0 < x := hx.lt_of_ne fun h => hsquare (h ▸ IsSquare.zero)
      have hne : approximateSqrt x p ^ 2 ≠ x := fun h => hsquare (h ▸ IsSquare.sq _)
      refine ⟨approximateSqrt x p, hsqrt, ?_,
        fun _ hword => ⟨approximateSqrt_pos hword hpos, ?_, ?_⟩⟩
      · rw [← sq]
        exact iff_of_false hne hsquare
      · rw [← sq]
        exact (approximateSqrt_sq_le hword hx).lt_of_ne hne
      · rw [← sq]
        exact mul_lt_approximateSqrt_sq hword hpos
  · show Standard.sqrt options v = _
    rw [Standard.sqrt, perfectRat?_two_of_neg hv]
    simp only [sqrt_of_neg hv]
    rfl
  · exact standard_sqrt hp hv

/-- The roots of `-1` and of two. -/
theorem sqrt_within_guard_digits_two :
    (-1 : ℚ) < 0 ∧ sqrt (-1) 20 = .error (.arithmetic .negativeSquareRoot) ∧
    ¬ IsSquare (2 : ℚ) ∧ 2 * places 2 20 < wordCount ∧ (∃ r, sqrt 2 20 = .ok r ∧ r * r < 2 ∧
      2 * (1 - 1 / 10 ^ (20 + 12)) ^ 2 < r * r) ∧
    1 ≤ ({} : Options).precision ∧ 0 < (2 : Value).toRat ∧
      2 * places (2 : Value).toRat ({} : Options).precision < wordCount ∧
      ∃ f, Standard.functions.find? (fun f => f.name = "sqrt") = some f ∧
        ∃ s : Value, ∃ e : ℤ, (f.call {} [2]).value = .ok s ∧
          IsWordPlace 1 (({} : Options).precision - 1 - e) ∧ BracketsSqrt s.toRat
            ((1 / 2 + 1 / 10 ^ 11) * 10 ^ (e - ({} : Options).precision + 1)) 2 := by
  have hsquare : ¬ IsSquare (2 : ℚ) :=
    (perfectRat?_two_eq_none_iff (by norm_num)).1 (by decide +kernel)
  have hprecision : 1 ≤ ({} : Options).precision := by decide
  have htwo : 0 < (2 : Value).toRat := by decide
  have hword : 2 * places 2 20 < wordCount := by decide +kernel
  have hstandard : 2 * places (2 : Value).toRat ({} : Options).precision < wordCount := by
    decide +kernel
  obtain ⟨hneg, -⟩ := sqrt_within_guard_digits (-1) 20
  obtain ⟨-, hroot, f, hf, hcall⟩ := sqrt_within_guard_digits 2 20
  obtain ⟨r, hr, -, hbelow⟩ := hroot (by norm_num)
  obtain ⟨s, hs, -, -, hbracket⟩ := (hcall {} 2).2 htwo.le hprecision
  obtain ⟨e, hlow, hhigh, he⟩ := hbracket htwo hstandard
  have hvalue : (2 : Value).toRat = 2 := rfl
  rw [hvalue] at hlow hhigh
  have hbelow_ten : (10 : ℚ) ^ e < 10 ^ (1 : ℤ) :=
    lt_of_pow_lt_pow_left₀ 2 (by positivity) (hlow.trans_lt (by norm_num))
  have habove_one : (10 : ℚ) ^ (0 : ℤ) < 10 ^ (e + 1) :=
    lt_of_pow_lt_pow_left₀ 2 (by positivity) (lt_trans (by norm_num) hhigh)
  obtain rfl : e = 0 := by
    have hhigh := (zpow_lt_zpow_iff_right₀ (by norm_num)).1 hbelow_ten
    have hlow := (zpow_lt_zpow_iff_right₀ (by norm_num)).1 habove_one
    omega
  have hplace : IsWordPlace 1 (({} : Options).precision - 1 - 0) := by decide
  exact ⟨by norm_num, hneg (by norm_num), hsquare, hword,
    ⟨r, hr, (hbelow hsquare hword).2⟩, hprecision, htwo, hstandard, f, hf, s, 0, hs, hplace,
    (he hplace).2⟩

/-- At the first precision whose places are no word the root of two comes out as one. -/
theorem sqrt_past_word :
    places 2 (wordCount - 13) = wordCount ∧ ¬ IsSquare (2 : ℚ) ∧
      sqrt 2 (wordCount - 13) = .ok 1 ∧
      ¬ (2 * (1 - 1 / 10 ^ (wordCount - 13 + 12)) ^ 2 < (1 : ℚ) * 1) := by
  have hroot : perfectRat? 2 2 = none := by decide +kernel
  have happroximate : approximateSqrt 2 (wordCount - 13) = 1 := by decide +kernel
  refine ⟨by decide +kernel, (perfectRat?_two_eq_none_iff (by norm_num)).1 hroot, ?_, ?_⟩
  · rw [sqrt, if_neg (by decide), hroot]
    exact congrArg Except.ok happroximate
  · have hlarge : (10 : ℚ) ^ 1 ≤ 10 ^ (wordCount - 13 + 12) :=
      pow_le_pow_right₀ (by norm_num) (by decide)
    generalize (10 : ℚ) ^ (wordCount - 13 + 12) = unit at hlarge ⊢
    have hsmall : 1 / unit ≤ 1 / 10 := one_div_le_one_div_of_le (by norm_num) (by linarith)
    have hpos : 0 < 1 / unit := by
      have : 0 < unit := by linarith
      positivity
    generalize 1 / unit = ε at hsmall hpos ⊢
    nlinarith

end Root
end Reckoner

import Mathlib
import Reckoner.Proofs.FixedPoint.Exponential
import Reckoner.Proofs.FixedPoint.Logarithm
import Reckoner.Proofs.FixedPoint.Trigonometry

/-!
# The loops end

The sum of a series is given a bound on its turns.  The loop that it stands for has none: it turns
until a test on the term tells it to leave.  `Series.Run` is that loop as a relation, with one
derivation for each finite run, and `Series.EndsWith` says that there is a run and what it adds up.

* `Series.IsStop.endsWith`: if the bounded sum reaches a zero term, then the loop ends, with that
  sum, under every test that holds of zero terms and after which nothing more is added.  Most loops
  leave at a zero term; the inverse tangent leaves already where a term adds nothing.
* The terms of an inverse tangent, of the inverse hyperbolic tangent and of the exponential at least
  halve from the first or the second one on; those of sine and cosine may grow before
  (`arctanInverse_endsWith`, `e_endsWith`, `atanhScaled_endsWith`, `expRestScaled_endsWith`,
  `taylorScaled_endsWith`).
* `loops_end` collects them, with what their callers ask for, and the loop that widens.  Only two
  of them need that the widths fit their words: the exponential, and the loop that widens
  (`exp_past_word`).
-/

namespace Reckoner
namespace FixedPoint

/-! ## Runs without a bound -/

namespace Series

/-- A run of the loop that sums a series, with no bound on its turns.  It stands at the `j`-th term
`t`, leaves as soon as the test `stop` holds, and adds `v` to the sum from here on. -/
inductive Run (s : Series) (stop : ℕ → ℤ → Prop) : ℕ → ℤ → ℤ → Prop
  | exit {j : ℕ} {t : ℤ} : stop j t → Run s stop j t 0
  | turn {j : ℕ} {t v : ℤ} : ¬stop j t → Run s stop (j + 1) (s.next j t) v →
      Run s stop j t (s.contribution j t + v)

/-- The loop reaches its exit, and there it has added up `v` and nothing else. -/
def EndsWith (s : Series) (stop : ℕ → ℤ → Prop) (first v : ℤ) : Prop :=
  ∀ u, s.Run stop 0 first u ↔ u = v

/-- The test for a zero term. -/
def AtZero : ℕ → ℤ → Prop := fun _ t => t = 0

/-- The test for a term that adds nothing. -/
def AddsNothing (s : Series) : ℕ → ℤ → Prop := fun j t => s.contribution j t = 0

/-- A test that may end the loop: it holds of zero terms, and once it holds, it goes on to hold and
nothing more is added. -/
structure IsStop (s : Series) (stop : ℕ → ℤ → Prop) : Prop where
  zero : ∀ j, stop j 0
  next : ∀ j t, stop j t → stop (j + 1) (s.next j t)
  contribution : ∀ j t, stop j t → s.contribution j t = 0

theorem Settles.isStop {s : Series} (h : s.Settles) : s.IsStop AtZero where
  zero _ := rfl
  next j t ht := by rw [AtZero] at ht ⊢; rw [ht, h.next_zero]
  contribution j t ht := by rw [AtZero] at ht; rw [ht, h.contribution_zero]

variable {s : Series} {stop : ℕ → ℤ → Prop}

/-- The loop is deterministic. -/
theorem Run.unique {j : ℕ} {t v v' : ℤ} (h : s.Run stop j t v) (h' : s.Run stop j t v') :
    v = v' := by
  induction h generalizing v' with
  | exit hstop =>
    cases h' with
    | exit _ => rfl
    | turn hgo _ => exact absurd hstop hgo
  | turn hgo _ ih =>
    cases h' with
    | exit hstop => exact absurd hstop hgo
    | turn _ hrest => rw [ih hrest]

namespace IsStop

variable (h : s.IsStop stop)
include h

theorem sumFrom_eq_zero {j : ℕ} {t : ℤ} (hstop : stop j t) (bound : ℕ) :
    s.sumFrom bound j t = 0 := by
  induction bound generalizing j t with
  | zero => rfl
  | succ bound ih =>
    rw [sumFrom, h.contribution j t hstop, ih (h.next j t hstop)]
    simp

/-- A bound that reaches a zero term leaves room for all the turns of the loop. -/
theorem run_sumFrom {first : ℤ} {bound j : ℕ} (hend : s.term first (j + bound) = 0) :
    s.Run stop j (s.term first j) (s.sumFrom bound j (s.term first j)) := by
  induction bound generalizing j with
  | zero =>
    rw [Nat.add_zero] at hend
    rw [hend]
    exact .exit (h.zero j)
  | succ bound ih =>
    by_cases hstop : stop j (s.term first j)
    · rw [h.sumFrom_eq_zero hstop]
      exact .exit hstop
    · have hterm : s.term first j ≠ 0 := by
        intro hzero
        rw [hzero] at hstop
        exact hstop (h.zero j)
      rw [sumFrom, if_neg hterm]
      exact .turn hstop (ih (by rwa [Nat.add_right_comm]))

/-- The loop ends, with the bounded sum, if the bound reaches a zero term. -/
theorem endsWith {first : ℤ} {bound : ℕ} (hend : s.term first bound = 0) :
    s.EndsWith stop first (s.sum bound first) := by
  have hrun : s.Run stop 0 first (s.sum bound first) :=
    h.run_sumFrom (j := 0) (by rwa [Nat.zero_add])
  intro u
  constructor
  · intro hu
    exact hu.unique hrun
  · rintro rfl
    exact hrun

end IsStop

end Series

open Series

/-! ## The series -/

theorem contribution_arctanSeries_eq_zero_iff (q : ℤ) (j : ℕ) (t : ℤ) :
    (arctanSeries q).contribution j t = 0 ↔ t.natAbs < 2 * j + 1 := by
  have hodd : (2 * (j : ℤ) + 1).natAbs = 2 * j + 1 := by omega
  rw [contribution_arctanSeries, mul_eq_zero_iff_left (pow_ne_zero _ (by norm_num)),
    ← Int.natAbs_eq_zero, Int.natAbs_tdiv, hodd]
  show t.natAbs / (2 * j + 1) = 0 ↔ _
  rw [Nat.div_eq_zero_iff]
  omega

/-- Terms shrink and their divisors grow: after one that adds nothing no other does. -/
theorem arctanSeries_isStop (q : ℤ) : (arctanSeries q).IsStop (arctanSeries q).AddsNothing where
  zero j := (arctanSeries_settles q).contribution_zero j
  next j t ht := by
    rw [AddsNothing, contribution_arctanSeries_eq_zero_iff] at ht ⊢
    have hnext : ((arctanSeries q).next j t).natAbs ≤ t.natAbs := by
      show (t.tdiv (q * q)).natAbs ≤ t.natAbs
      rw [Int.natAbs_tdiv]
      exact Nat.div_le_self _ _
    omega
  contribution _ _ ht := ht

theorem arctanInverse_endsWith {q : ℤ} (hq : 1 < q) (scale : ℤ) :
    (arctanSeries q).EndsWith (arctanSeries q).AddsNothing (scale.tdiv q)
      (arctanInverse q scale) :=
  (arctanSeries_isStop q).endsWith (term_arctanSeries_halvings hq scale)

/-- At one, the second term of the exponential series is the first again, and from there on they
at least halve. -/
theorem term_expAt_one (w : ℕ) :
    (expAt (wordTenPow w) w).term (wordTenPow w) (halvings (wordTenPow w) + 1) = 0 := by
  have hunit : (wordTenPow w : ℤ) ≠ 0 := by exact_mod_cast (wordTenPow_pos w).ne'
  have hfirst : (expAt (wordTenPow w) w).term (wordTenPow w) 1 = wordTenPow w := by
    show ((wordTenPow w : ℤ) * wordTenPow w).tdiv (wordTenPow w * ((0 : ℕ) + 1)) = wordTenPow w
    rw [Nat.cast_zero, zero_add, mul_one, Int.mul_tdiv_cancel _ hunit]
  rw [Nat.add_comm]
  refine term_eq_zero_of_natAbs_lt ?_ ?_
  · intro j t hj
    refine two_mul_natAbs_tdiv_le t ?_
    rw [Int.natAbs_mul, mul_comm]
    exact Nat.mul_le_mul_left _ (by omega)
  · rw [hfirst]
    exact natAbs_lt_halvings _

theorem e_endsWith (precision : ℕ) :
    ∃ v, (expAt (wordTenPow (precision + guardDigits)) (precision + guardDigits)).EndsWith AtZero
        (wordTenPow (precision + guardDigits)) v ∧
      e precision = toRat v (precision + guardDigits) :=
  ⟨_, (expSeries_settles _ _).isStop.endsWith (term_expAt_one _), rfl⟩

theorem atanhScaled_endsWith {zn zd : ℤ} (w : ℕ) (hzd : 0 < zd) (hz : 3 * |zn| ≤ zd) :
    (atanhAt zn zd w).EndsWith AtZero (atanhFirst zn zd w) (atanhScaled zn zd w) :=
  (atanhSeries_settles _ _).isStop.endsWith (term_atanhAt_halvings w hzd hz _)

theorem expRestScaled_endsWith {w : ℕ} (hw : toWord w ≠ 0) (z : ℤ) :
    (expAt (expRest z w) w).EndsWith AtZero (wordTenPow w) (expRestScaled z w) :=
  (expSeries_settles _ _).isStop.endsWith
    (term_expAt_halvings (two_mul_abs_expRest_le_unit hw z) _)

theorem taylorScaled_endsWith (r first : ℤ) (n w : ℕ) :
    (taylorAt r w n).EndsWith AtZero first (taylorScaled r first n w) :=
  (taylorSeries_settles _ _ n).isStop.endsWith
    (term_taylorBound n first (by exact_mod_cast (wordTenPow_pos w).ne'))

/-! ## What the callers ask for -/

/-- The width at which a real power is computed. -/
def powerWidth (x y : ℚ) (precision : ℕ) : ℕ :=
  precision + guardDigits + integerDigits y + Numeral.digitCount (binaryExponent x).natAbs

/-- The exponent of a real power, in units of the last place. -/
def powerExponent (x y : ℚ) (w : ℕ) : ℤ := (lnScaled x w * y.num).tdiv y.den

theorem power_eq_expScaled {x : ℚ} (hx : 0 < x) (y : ℚ) (precision : ℕ) :
    power x y precision = expScaled (powerExponent x y (powerWidth x y precision))
      (powerWidth x y precision) := by
  rw [power, if_neg (not_le.2 (Rat.num_pos.2 hx))]
  rfl

/-- A width with the guard digits leaves some of them as long as it is a word. -/
theorem toWord_ne_zero_of_guardDigits_le {w : ℕ} (hguard : guardDigits ≤ w) (hw : w < wordCount) :
    toWord w ≠ 0 := by
  rw [toWord_of_lt hw]
  exact Nat.ne_of_gt ((by decide : 0 < guardDigits).trans_le hguard)

/-- **The loops end** at every precision and width, each with the sum that its function returns.

* The inverse tangent, for every argument above one and every scale.
* The number e.
* The inverse hyperbolic tangent, up to a third; the logarithm of a positive number asks for no
  more.
* The exponential series, after the reduction, if a word leaves something of the width;
  exponentials and real powers of positive numbers have them as long as their widths are words.
* The series of sine and cosine, for every argument and every first term.
* The loop that widens, whatever it computes and as long as its widths are sizes: it stops between
  the first width and the limit, and short of the limit it stops only where enough digits are
  known. -/
theorem loops_end (precision w : ℕ) :
    (∀ q scale : ℤ, 1 < q → (arctanSeries q).EndsWith (arctanSeries q).AddsNothing
      (scale.tdiv q) (arctanInverse q scale)) ∧
    (∃ v, (expAt (wordTenPow (precision + guardDigits)) (precision + guardDigits)).EndsWith AtZero
        (wordTenPow (precision + guardDigits)) v ∧
      e precision = toRat v (precision + guardDigits)) ∧
    (∀ zn zd : ℤ, 0 < zd → 3 * |zn| ≤ zd →
      (atanhAt zn zd w).EndsWith AtZero (atanhFirst zn zd w) (atanhScaled zn zd w)) ∧
    (∀ x : ℚ, 0 < x → 0 < reducedDen x ∧ 3 * |reducedNum x| ≤ reducedDen x ∧
      lnScaled x w = atanhScaled 1 3 w * 2 * binaryExponent x +
        atanhScaled (reducedNum x) (reducedDen x) w * 2) ∧
    (∀ z : ℤ, toWord w ≠ 0 →
      (expAt (expRest z w) w).EndsWith AtZero (wordTenPow w) (expRestScaled z w) ∧
      ∀ a, expScaled z w = .ok a → a = toRat (expRestScaled z w) w * 2 ^ binaryPart z w) ∧
    (∀ x y : ℚ,
      ((expWidth x precision < wordCount → toWord (expWidth x precision) ≠ 0) ∧
        exp x precision =
          expScaled (ofRat x (expWidth x precision)) (expWidth x precision)) ∧
      ((powerWidth x y precision < wordCount → toWord (powerWidth x y precision) ≠ 0) ∧
        (0 < x → power x y precision =
          expScaled (powerExponent x y (powerWidth x y precision)) (powerWidth x y precision)))) ∧
    (∀ (r first : ℤ) (n : ℕ),
      (taylorAt r w n).EndsWith AtZero first (taylorScaled r first n w)) ∧
    ∀ (α : Type) (compute : ℕ → α × ℕ),
      w + 5 * (precision + 12) < sizeCount → ∃ w', w ≤ w' ∧
        w' ≤ w + 4 * (precision + 12) ∧
        (precision + 6 ≤ (compute w').2 ∨ w' = w + 4 * (precision + 12)) ∧
        widen precision w compute = ((compute w').1, w') := by
  refine ⟨?_, e_endsWith precision, ?_, ?_, ?_, ?_, ?_, ?_⟩
  · intro q scale hq
    exact arctanInverse_endsWith hq scale
  · intro zn zd hzd hz
    exact atanhScaled_endsWith w hzd hz
  · intro x hx
    exact ⟨reducedDen_pos hx, (three_mul_abs_reducedNum_lt hx).le, lnScaled_eq x w⟩
  · intro z hw
    exact ⟨expRestScaled_endsWith hw z, fun a ha => (exists_of_expScaled ha).2.2⟩
  · intro x y
    refine ⟨⟨toWord_ne_zero_of_guardDigits_le ?_, rfl⟩, toWord_ne_zero_of_guardDigits_le ?_,
      fun hx => power_eq_expScaled hx y precision⟩
    · rw [expWidth]
      omega
    · rw [powerWidth]
      omega
  · intro r first n
    exact taylorScaled_endsWith r first n w
  · intro α compute hsize
    have hlimit : w + 4 * (precision + guardDigits) < sizeCount := by
      rw [guardDigits]
      omega
    have hwanted : wantedDigits precision = precision + 6 := toSize_of_lt (by
      rw [guardDigits]
      omega)
    have h := widen_spec compute hlimit
    rwa [widthLimit_of_lt hlimit, hwanted] at h

/-- The loops at small widths; the terms of the sine at twenty grow up to the ninth. -/
theorem loops_end_small :
    (1 : ℤ) < 5 ∧ arctanInverse 5 1000 = 198 ∧
    (arctanSeries 5).EndsWith (arctanSeries 5).AddsNothing ((1000 : ℤ).tdiv 5) 198 ∧
    (0 : ℤ) < 3 ∧ 3 * |(-1 : ℤ)| ≤ 3 ∧ atanhScaled (-1) 3 6 = -346571 ∧
    (atanhAt (-1) 3 6).EndsWith AtZero (atanhFirst (-1) 3 6) (-346571) ∧
    (0 : ℚ) < 5 / 8 ∧ 3 * |reducedNum (5 / 8)| ≤ reducedDen (5 / 8) ∧
    toWord 12 ≠ 0 ∧ expScaled (10 ^ 12) 12 = .ok (1359140914239 / 500000000000) ∧
    1359140914239 / 500000000000 =
      toRat (expRestScaled (10 ^ 12) 12) 12 * 2 ^ binaryPart (10 ^ 12) 12 ∧
    14 < wordCount ∧ toWord 14 ≠ 0 ∧
    power (5 / 8) (1 / 2) 1 = expScaled (powerExponent (5 / 8) (1 / 2) 14) 14 ∧
    (taylorAt 2000 2 1).term 2000 9 = -4309969457 ∧ taylorScaled 2000 2000 1 2 = 92 ∧
    (taylorAt 2000 2 1).EndsWith AtZero 2000 92 ∧
    14 + 5 * (1 + 12) < sizeCount ∧
    ∃ w, 14 ≤ w ∧ w ≤ 66 ∧ (7 ≤ knownDigits (lnScaled (5 / 8) w) ∨ w = 66) := by
  have harctan : arctanInverse 5 1000 = 198 := by decide +kernel
  have hatanh : atanhScaled (-1) 3 6 = -346571 := by decide +kernel
  have hexp : expScaled (10 ^ 12) 12 = .ok (1359140914239 / 500000000000) := by decide +kernel
  have hwidth : powerWidth (5 / 8) (1 / 2) 1 = 14 := by decide +kernel
  have hsine : taylorScaled 2000 2000 1 2 = 92 := by decide +kernel
  have hpos : (0 : ℚ) < 5 / 8 := by norm_num
  have hguard : toWord 12 ≠ 0 := by decide
  have hword : 14 < wordCount := by decide
  have hsize : 14 + 5 * (1 + 12) < sizeCount := by decide
  obtain ⟨hinverse, -, hhyperbolic, hreduced, -⟩ := loops_end 1 6
  obtain ⟨-, -, -, -, hexponential, -⟩ := loops_end 1 12
  obtain ⟨-, -, -, -, -, -, htaylor, -⟩ := loops_end 1 2
  obtain ⟨-, -, -, -, -, hcallers, -, hwiden⟩ := loops_end 1 14
  have hfive := hinverse 5 1000 (by norm_num)
  have hthird := hhyperbolic (-1) 3 (by norm_num) (by norm_num)
  obtain ⟨-, hleft, hpower⟩ := hcallers (5 / 8) (1 / 2)
  have hroot := hpower hpos
  have htwenty := htaylor 2000 2000 1
  obtain ⟨w, hlow, hhigh, hstop, -⟩ :=
    hwiden ℤ (fun w => (lnScaled (5 / 8) w, knownDigits (lnScaled (5 / 8) w))) hsize
  rw [harctan] at hfive
  rw [hatanh] at hthird
  rw [hwidth] at hleft hroot
  rw [hsine] at htwenty
  exact ⟨by norm_num, harctan, hfive, by norm_num, by norm_num, hatanh, hthird, hpos,
    (hreduced _ hpos).2.1, hguard, hexp, (hexponential _ hguard).2 _ hexp, hword, hleft hword,
    hroot, by decide +kernel, hsine, htwenty, hsize, w, hlow, hhigh, hstop⟩

/-- At the first width that is no word `ln 2` is zero, so the exponential divides by zero before it
comes to its loop.  And a limit that is no size comes out too small: the loop that widens stops
after forty-eight digits, with none of those known that it was asked for. -/
theorem exp_past_word :
    expWidth 0 (wordCount - 12) = wordCount ∧
      exp 0 (wordCount - 12) = .error (.arithmetic .crash) ∧
      widen (2 ^ 62) 100 (fun w => (w, 0)) = (148, 148) ∧
      ¬(2 ^ 62 + 6 ≤ 0 ∨ 148 = 100 + 4 * (2 ^ 62 + 12)) := by
  have hwidth : expWidth 0 (wordCount - 12) = wordCount := by decide +kernel
  refine ⟨hwidth, ?_, ?_, by norm_num⟩
  · have hexp : exp 0 (wordCount - 12) = expScaled (ofRat 0 (expWidth 0 (wordCount - 12)))
        (expWidth 0 (wordCount - 12)) := rfl
    rw [hexp, hwidth]
    exact expScaled_of_toWord_eq_zero _ (by decide)
  · obtain ⟨w, hlow, hhigh, hstop, hresult⟩ := widenFrom_spec (fun w => (w, 0))
      (wantedDigits (2 ^ 62)) (widthLimit (2 ^ 62) 100) 100
    have hwanted : wantedDigits (2 ^ 62) = 2 ^ 62 + 6 := by decide
    have hlimit : widthLimit (2 ^ 62) 100 = 148 := by decide
    obtain rfl : w = 148 := by
      rw [hlimit] at hhigh hstop
      rw [hwanted] at hstop
      omega
    exact hresult

end FixedPoint
end Reckoner

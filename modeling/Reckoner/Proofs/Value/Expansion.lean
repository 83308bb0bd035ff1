import Mathlib
import Reckoner.Expansion
import Reckoner.Powers

/-!
# Which denominators have a finite expansion

`Expansion.placesFor?` divides all twos and fives out of a denominator.  This file
shows that the division by squares really takes out every factor
(`divideOut_spec`), and that the answer is right in both directions:

* a number of places is only given if that power of ten clears the denominator
  (`dvd_tenPow_of_placesFor?`);
* if no number of places is given, then no power of ten clears the denominator
  (`not_dvd_tenPow_of_placesFor?`).
-/

namespace Reckoner

theorem tenPow_eq (k : ℕ) : tenPow k = 10 ^ k := rfl

theorem wordTenPow_eq (k : ℕ) : wordTenPow k = 10 ^ toWord k := rfl

theorem tenPow_add (j k : ℕ) : tenPow (j + k) = tenPow j * tenPow k := pow_add 10 j k

theorem tenPow_dvd_tenPow {j k : ℕ} (h : j ≤ k) : tenPow j ∣ tenPow k := pow_dvd_pow 10 h

namespace Expansion

/-! ## Dividing a factor out -/

theorem divideOutWithin_mul (fuel p n : ℕ) :
    n = p ^ (divideOutWithin fuel p n).1 * (divideOutWithin fuel p n).2 := by
  induction fuel generalizing p n with
  | zero => simp [divideOutWithin]
  | succ fuel ih =>
    rw [divideOutWithin]
    split
    · simp
    · rename_i hdvd
      have hn : n = p * (n / p) := (Nat.mul_div_cancel' (Nat.dvd_of_mod_eq_zero (by omega))).symm
      have hrec := ih (p * p) (n / p)
      generalize divideOutWithin fuel (p * p) (n / p) = result at hrec ⊢
      obtain ⟨k, rest⟩ := result
      simp only at hrec ⊢
      split
      · rename_i hrest
        have hr : rest = p * (rest / p) :=
          (Nat.mul_div_cancel' (Nat.dvd_of_mod_eq_zero hrest)).symm
        calc n = p * ((p * p) ^ k * rest) := by rw [← hrec, ← hn]
          _ = p * ((p * p) ^ k * (p * (rest / p))) := by rw [← hr]
          _ = p ^ (2 * k + 2) * (rest / p) := by ring
      · calc n = p * ((p * p) ^ k * rest) := by rw [← hrec, ← hn]
          _ = p ^ (2 * k + 1) * rest := by ring

/-- With as many levels as `n` has binary digits no factor is left: each level at
least halves what is still to be divided. -/
theorem not_dvd_divideOutWithin {p : ℕ} (hp : 2 ≤ p) (fuel : ℕ) {n : ℕ} (hn : 0 < n)
    (hfuel : n < 2 ^ fuel) : ¬ p ∣ (divideOutWithin fuel p n).2 := by
  induction fuel generalizing p n with
  | zero => omega
  | succ fuel ih =>
    rw [divideOutWithin]
    split
    · rename_i hmod
      exact fun h => hmod (Nat.mod_eq_zero_of_dvd h)
    · rename_i hmod
      have hle : p ≤ n := Nat.le_of_dvd hn (Nat.dvd_of_mod_eq_zero (by omega))
      have hpos : 0 < n / p := Nat.div_pos hle (by omega)
      have hsmall : n / p < 2 ^ fuel := by
        rw [Nat.div_lt_iff_lt_mul (by omega)]
        calc n < 2 ^ fuel * 2 := by rw [← pow_succ]; exact hfuel
          _ ≤ 2 ^ fuel * p := Nat.mul_le_mul_left _ hp
      have hrec := ih (p := p * p) (by nlinarith) hpos hsmall
      generalize divideOutWithin fuel (p * p) (n / p) = result at hrec ⊢
      obtain ⟨k, rest⟩ := result
      simp only at hrec ⊢
      split
      · rename_i hrest
        have hr : rest = p * (rest / p) :=
          (Nat.mul_div_cancel' (Nat.dvd_of_mod_eq_zero hrest)).symm
        intro h
        exact hrec (hr ▸ Nat.mul_dvd_mul_left p h)
      · rename_i hrest
        exact fun h => hrest (Nat.mod_eq_zero_of_dvd h)

/-- The factorisation that `divideOut` finds: all factors `p`, and a cofactor
without any. -/
theorem divideOut_spec {p : ℕ} (hp : 2 ≤ p) {n : ℕ} (hn : 0 < n) :
    n = p ^ (divideOut p n).1 * (divideOut p n).2 ∧ ¬ p ∣ (divideOut p n).2 :=
  ⟨divideOutWithin_mul _ p n, not_dvd_divideOutWithin hp _ hn (lt_twoPow_log2_succ n)⟩

/-! ## The places of a denominator -/

/-- What is left of a denominator once its twos and fives are gone. -/
theorem placesFor?_spec {den : ℕ} (hden : 0 < den) :
    ∃ twos fives rest, den = 2 ^ twos * (5 ^ fives * rest) ∧ ¬ 2 ∣ rest ∧ ¬ 5 ∣ rest ∧
      placesFor? den = if rest = 1 then some (max twos fives) else none := by
  obtain ⟨htwo, hno2⟩ := divideOut_spec (le_refl 2) hden
  rw [placesFor?, if_neg hden.ne']
  generalize divideOut 2 den = d₂ at htwo hno2 ⊢
  obtain ⟨twos, odd⟩ := d₂
  simp only at htwo hno2 ⊢
  have hodd : 0 < odd := Nat.pos_of_ne_zero fun h => hno2 (by simp [h])
  obtain ⟨hfive, hno5⟩ := divideOut_spec (p := 5) (by norm_num) hodd
  generalize divideOut 5 odd = d₅ at hfive hno5 ⊢
  obtain ⟨fives, rest⟩ := d₅
  simp only at hfive hno5 ⊢
  refine ⟨twos, fives, rest, by rw [← hfive, ← htwo], fun h => hno2 ?_, hno5, rfl⟩
  rw [hfive]
  exact h.mul_left _

/-- The power of ten of the places that are given clears the denominator. -/
theorem dvd_tenPow_of_placesFor? {den places : ℕ} (h : placesFor? den = some places) :
    den ∣ tenPow places := by
  have hden : 0 < den := Nat.pos_of_ne_zero fun h0 => by simp [h0, placesFor?] at h
  obtain ⟨twos, fives, rest, hfact, -, -, hplaces⟩ := placesFor?_spec hden
  rw [hplaces] at h
  split at h
  · rename_i hrest
    obtain rfl := Option.some.inj h
    rw [hfact, hrest, mul_one, tenPow_eq, show (10 : ℕ) = 2 * 5 from rfl, mul_pow]
    exact Nat.mul_dvd_mul (pow_dvd_pow 2 (le_max_left _ _)) (pow_dvd_pow 5 (le_max_right _ _))
  · exact absurd h (by simp)

/-- A denominator that some power of ten clears is given a number of places: a
divisor of a power of ten without twos and fives is one. -/
theorem placesFor?_isSome_of_dvd {den k : ℕ} (h : den ∣ tenPow k) :
    (placesFor? den).isSome = true := by
  obtain ⟨twos, fives, rest, hfact, hno2, hno5, hplaces⟩ :=
    placesFor?_spec (Nat.pos_of_dvd_of_pos h (tenPow_pos k))
  have hcop : Nat.Coprime rest (tenPow k) := by
    refine Nat.Coprime.pow_right k ?_
    rw [show (10 : ℕ) = 2 * 5 from rfl]
    exact Nat.Coprime.mul_right ((Nat.coprime_comm.1 ((Nat.prime_two.coprime_iff_not_dvd).2 hno2)))
      ((Nat.coprime_comm.1 ((Nat.prime_five.coprime_iff_not_dvd).2 hno5)))
  have hdvd : rest ∣ tenPow k := by
    refine Dvd.dvd.trans ?_ h
    rw [hfact]
    exact (Dvd.intro_left _ rfl).mul_left _
  rw [hplaces, if_pos (Nat.eq_one_of_dvd_coprimes hcop (dvd_refl rest) hdvd)]
  rfl

theorem not_dvd_tenPow_of_placesFor? {den : ℕ} (h : placesFor? den = none) (k : ℕ) :
    ¬ den ∣ tenPow k := by
  intro hdvd
  have hsome := placesFor?_isSome_of_dvd hdvd
  rw [h] at hsome
  exact absurd hsome (by simp)

end Expansion
end Reckoner

import Mathlib
import Reckoner.Numeral
import Reckoner.Proofs.Value.Expansion

/-!
# Numerals read back

A numeral is written in halves of equal width and measured by its binary length, but
it is still the numeral of the number: all its characters are digits
(`isDigit_of_mem_digits`) and its value is the number (`value_digits`).  A block of
fixed width has the value of the last digits (`value_fixed`), which is what puts the
digits after a point back where they belong.  The digit count is exact: the number lies
below that power of ten (`lt_tenPow_digitCount`) and not below the one before it
(`tenPow_digitCount_le`), so that no numeral but that of zero begins with a zero
(`digits_eq_zero_of_head`), and every other run of digits is a numeral (`digits_value`).  With a
point among the digits it is still the digits of the mantissa (`exists_digits_fixedPoint`).
-/

namespace Reckoner
namespace Numeral

/-! ## Digits -/

theorem isDigit_digitChar {d : ℕ} (hd : d < 10) : (Nat.digitChar d).isDigit = true := by
  interval_cases d <;> rfl

theorem digitValue_digitChar {d : ℕ} (hd : d < 10) : digitValue (Nat.digitChar d) = d := by
  interval_cases d <;> rfl

theorem digitValue_lt {c : Char} (hc : c.isDigit = true) : digitValue c < 10 := by
  simp only [Char.isDigit, Bool.and_eq_true, decide_eq_true_eq] at hc
  have hle : c.toNat ≤ 57 := UInt32.le_iff_toNat_le.1 hc.2
  show c.toNat - 48 < 10
  omega

theorem digitValue_inj {c d : Char} (hc : c.isDigit = true) (hd : d.isDigit = true)
    (h : digitValue c = digitValue d) : c = d := by
  simp only [Char.isDigit, Bool.and_eq_true, decide_eq_true_eq] at hc hd
  have hc' : 48 ≤ c.toNat := UInt32.le_iff_toNat_le.1 hc.1
  have hd' : 48 ≤ d.toNat := UInt32.le_iff_toNat_le.1 hd.1
  refine Char.toNat_inj.1 ?_
  change c.toNat - 48 = d.toNat - 48 at h
  omega

/-! ## The value of a run of digits -/

@[simp] theorem value_nil : value [] = 0 := rfl

theorem value_append (xs ys : List Char) :
    value (xs ++ ys) = value xs * 10 ^ ys.length + value ys := by
  induction ys using List.reverseRecOn with
  | nil => simp
  | append_singleton ys c ih =>
    rw [← List.append_assoc, value_append_singleton, value_append_singleton, ih,
      List.length_append, List.length_singleton]
    ring

theorem value_lt {cs : List Char} (h : ∀ c ∈ cs, c.isDigit = true) :
    value cs < 10 ^ cs.length := by
  induction cs using List.reverseRecOn with
  | nil => simp
  | append_singleton cs c ih =>
    have hc := digitValue_lt (h c (by simp))
    have hcs := ih fun d hd => h d (by simp [hd])
    rw [value_append_singleton, List.length_append, List.length_singleton, pow_succ]
    omega

/-- The value of a run of digits tells the values of its parts, if they are cut at one place. -/
theorem value_append_inj {xs ys xs' ys' : List Char} (hys : ∀ c ∈ ys, c.isDigit = true)
    (hys' : ∀ c ∈ ys', c.isDigit = true) (hlength : ys.length = ys'.length)
    (h : value (xs ++ ys) = value (xs' ++ ys')) : value xs = value xs' ∧ value ys = value ys' := by
  have hlt := value_lt hys
  have hlt' := value_lt hys'
  rw [value_append, value_append, ← hlength] at h
  rw [← hlength] at hlt'
  have hbelow : value ys = value ys' := by
    have hmod := congrArg (· % 10 ^ ys.length) h
    simpa only [Nat.mul_add_mod_self_right, Nat.mod_eq_of_lt hlt, Nat.mod_eq_of_lt hlt'] using hmod
  rw [hbelow] at h
  exact ⟨Nat.eq_of_mul_eq_mul_right (by positivity) (Nat.add_right_cancel h), hbelow⟩

/-- Runs of digits of one length have different values. -/
theorem eq_of_value_eq {xs ys : List Char} (hxs : ∀ c ∈ xs, c.isDigit = true)
    (hys : ∀ c ∈ ys, c.isDigit = true) (hlength : xs.length = ys.length)
    (hvalue : value xs = value ys) : xs = ys := by
  induction xs using List.reverseRecOn generalizing ys with
  | nil => exact (List.length_eq_zero_iff.1 hlength.symm).symm
  | append_singleton xs c ih =>
    cases ys using List.reverseRecOn with
    | nil => simp at hlength
    | append_singleton ys d =>
      have hc := hxs c (by simp)
      have hd := hys d (by simp)
      have hc' := digitValue_lt hc
      have hd' := digitValue_lt hd
      rw [value_append_singleton, value_append_singleton] at hvalue
      have hrest : xs = ys := ih (fun a ha => hxs a (by simp [ha]))
        (fun a ha => hys a (by simp [ha])) (by simpa using hlength) (by omega)
      rw [hrest, digitValue_inj hc hd (by omega)]

/-! ## Blocks -/

theorem blockUnit_eq (level : ℕ) : blockUnit level = tenPow (twoPow level) := by
  induction level with
  | zero => rfl
  | succ level ih => rw [blockUnit, ih, twoPow_succ, Nat.mul_two, tenPow_add]

theorem isDigit_of_mem_block {level n : ℕ} {c : Char} (hc : c ∈ block level n) :
    c.isDigit = true := by
  induction level generalizing n with
  | zero =>
    rw [block, List.mem_singleton] at hc
    rw [hc]
    exact isDigit_digitChar (Nat.mod_lt _ (by norm_num))
  | succ level ih =>
    rw [block, List.mem_append] at hc
    exact hc.elim ih ih

theorem value_block (level n : ℕ) : value (block level n) = n % tenPow (twoPow level) := by
  induction level generalizing n with
  | zero =>
    show value [Nat.digitChar (n % 10)] = n % 10
    rw [show [Nat.digitChar (n % 10)] = [] ++ [Nat.digitChar (n % 10)] from rfl,
      value_append_singleton, digitValue_digitChar (Nat.mod_lt _ (by norm_num)), value_nil]
    omega
  | succ level ih =>
    rw [block, value_append, ih, ih, length_block, blockUnit_eq, Nat.mod_mod, twoPow_succ,
      Nat.mul_two, tenPow_add, Nat.mod_mul, ← tenPow_eq]
    ring

theorem isDigit_of_mem_fixed {k n : ℕ} {c : Char} (hc : c ∈ fixed k n) : c.isDigit = true :=
  isDigit_of_mem_block (List.mem_of_mem_drop hc)

/-- The block of width `k` is the value of the last `k` digits. -/
theorem value_fixed (k n : ℕ) : value (fixed k n) = n % tenPow k := by
  set whole := block (k.log2 + 1) n with hwhole
  have hsplit : whole = whole.take (twoPow (k.log2 + 1) - k) ++ fixed k n := by
    rw [fixed, List.take_append_drop]
  have hlt : value (fixed k n) < tenPow k := by
    have h := value_lt (fun c (hc : c ∈ fixed k n) => isDigit_of_mem_fixed hc)
    rwa [length_fixed, ← tenPow_eq] at h
  have hvalue := congrArg value hsplit
  rw [value_append, length_fixed, ← tenPow_eq, hwhole, value_block] at hvalue
  have hle : k ≤ twoPow (k.log2 + 1) := (lt_twoPow_log2_succ k).le
  calc value (fixed k n) = value (fixed k n) % tenPow k := (Nat.mod_eq_of_lt hlt).symm
    _ = n % tenPow (twoPow (k.log2 + 1)) % tenPow k := by
      rw [hvalue, Nat.mul_add_mod_self_right]
    _ = n % tenPow k := Nat.mod_mod_of_dvd n (tenPow_dvd_tenPow hle)

/-! ## Whole numerals -/

theorem safeCut_pos (n : ℕ) : 0 < safeCut n := lt_of_lt_of_le one_pos (le_max_left _ _)

/-- The digit count is enough for the number. -/
theorem lt_tenPow_digitCountWithin (fuel : ℕ) {n : ℕ} (hn : n < 2 ^ fuel) :
    n < tenPow (digitCountWithin fuel n) := by
  induction fuel generalizing n with
  | zero =>
    rw [digitCountWithin]
    exact lt_of_lt_of_le hn (by decide)
  | succ fuel ih =>
    rw [digitCountWithin]
    split
    · rename_i hsmall
      exact hsmall
    · have hcut : 2 ≤ tenPow (safeCut n) :=
        le_trans (by decide : 2 ≤ tenPow 1) (Nat.pow_le_pow_right (by norm_num) (safeCut_pos n))
      have hrest : n / tenPow (safeCut n) < 2 ^ fuel := by
        rw [Nat.div_lt_iff_lt_mul (tenPow_pos _)]
        calc n < 2 ^ fuel * 2 := by rw [← pow_succ]; exact hn
          _ ≤ 2 ^ fuel * tenPow (safeCut n) := Nat.mul_le_mul_left _ hcut
      rw [tenPow_add, mul_comm]
      exact (Nat.div_lt_iff_lt_mul (tenPow_pos _)).1 (ih hrest)

theorem lt_tenPow_digitCount (n : ℕ) : n < tenPow (digitCount n) :=
  lt_tenPow_digitCountWithin _ (lt_twoPow_log2_succ n)

/-- What is cut off a number of at least ten is shorter than the number. -/
theorem tenPow_safeCut_le {n : ℕ} (hn : 10 ≤ n) : tenPow (safeCut n) ≤ n := by
  rw [safeCut, tenPow_eq]
  rcases max_cases 1 (3 * (n.log2 / 10)) with ⟨hcut, -⟩ | ⟨hcut, -⟩
  · rw [hcut, pow_one]
    exact hn
  · rw [hcut]
    calc 10 ^ (3 * (n.log2 / 10)) = (10 ^ 3) ^ (n.log2 / 10) := pow_mul ..
      _ ≤ (2 ^ 10) ^ (n.log2 / 10) := Nat.pow_le_pow_left (by norm_num) _
      _ = 2 ^ (10 * (n.log2 / 10)) := (pow_mul ..).symm
      _ ≤ 2 ^ n.log2 := Nat.pow_le_pow_right (by norm_num) (Nat.mul_div_le _ _)
      _ ≤ n := Nat.log2_self_le (by omega)

/-- The digit count is no more than the number needs. -/
theorem tenPow_digitCountWithin_le (fuel : ℕ) {n : ℕ} (hn : 0 < n) :
    tenPow (digitCountWithin fuel n - 1) ≤ n := by
  induction fuel generalizing n with
  | zero => exact hn
  | succ fuel ih =>
    rw [digitCountWithin]
    split
    · exact hn
    · rename_i hlarge
      have hcut := tenPow_safeCut_le (Nat.le_of_not_lt hlarge)
      have hrest := ih (Nat.div_pos hcut (tenPow_pos _))
      calc tenPow (safeCut n + digitCountWithin fuel (n / tenPow (safeCut n)) - 1)
          ≤ tenPow (digitCountWithin fuel (n / tenPow (safeCut n)) - 1 + safeCut n) :=
            Nat.pow_le_pow_right (by norm_num) (by omega)
        _ = tenPow (digitCountWithin fuel (n / tenPow (safeCut n)) - 1) * tenPow (safeCut n) :=
            tenPow_add ..
        _ ≤ n := (Nat.le_div_iff_mul_le (tenPow_pos _)).1 hrest

theorem tenPow_digitCount_le {n : ℕ} (hn : 0 < n) : tenPow (digitCount n - 1) ≤ n :=
  tenPow_digitCountWithin_le _ hn

theorem digitCount_pos (n : ℕ) : 0 < digitCount n := by
  rw [digitCount, digitCountWithin]
  split
  · exact one_pos
  · exact Nat.add_pos_left (safeCut_pos n) _

/-- A number has more than `k` digits from the `k`-th power of ten on; zero has one. -/
theorem lt_digitCount_iff {n k : ℕ} (hk : 0 < k) : k < digitCount n ↔ 10 ^ k ≤ n := by
  constructor
  · intro h
    have hn : 0 < n := by
      rw [Nat.pos_iff_ne_zero]
      rintro rfl
      have hzero : digitCount 0 = 1 := by decide
      omega
    exact (Nat.pow_le_pow_right (by norm_num) (Nat.le_sub_one_of_lt h)).trans
      (tenPow_digitCount_le hn)
  · intro h
    exact (Nat.pow_lt_pow_iff_right (by norm_num)).1 (h.trans_lt (lt_tenPow_digitCount n))

theorem isDigit_of_mem_digits {n : ℕ} {c : Char} (hc : c ∈ digits n) : c.isDigit = true :=
  isDigit_of_mem_fixed hc

theorem value_digits (n : ℕ) : value (digits n) = n := by
  rw [digits, value_fixed, Nat.mod_eq_of_lt (lt_tenPow_digitCount n)]

theorem digits_ne_nil (n : ℕ) : digits n ≠ [] := by
  intro h
  have hlength : (digits n).length = digitCount n := length_fixed _ n
  rw [h, List.length_nil] at hlength
  exact (digitCount_pos n).ne hlength

/-- A numeral that begins with a zero is that zero. -/
theorem digits_eq_zero_of_head {n : ℕ} (h : (digits n).head? = some '0') : digits n = ['0'] := by
  obtain ⟨rest, hrest⟩ := List.head?_eq_some_iff.1 h
  have hlength : rest.length = digitCount n - 1 := by
    have hdigits : (digits n).length = digitCount n := length_fixed _ n
    rw [hrest, List.length_cons] at hdigits
    omega
  -- the zero adds nothing to the value, and the digits after it are too few for the number
  have hvalue : value rest = n := by
    have hdigits := value_digits n
    rw [hrest, show '0' :: rest = ['0'] ++ rest from rfl, value_append] at hdigits
    simpa [value, digitValue] using hdigits
  have hlt : n < tenPow (digitCount n - 1) := by
    have hbound := value_lt fun c (hc : c ∈ rest) =>
      isDigit_of_mem_digits (n := n) (by simp [hrest, hc])
    rwa [hvalue, hlength, ← tenPow_eq] at hbound
  have hzero : n = 0 := by
    by_contra hne
    exact absurd hlt (not_lt.2 (tenPow_digitCount_le (Nat.pos_of_ne_zero hne)))
  rw [hzero]
  decide

/-- A run of digits without needless zeros is the numeral of its value. -/
theorem digits_value {cs : List Char} (hne : cs ≠ []) (hdigits : ∀ c ∈ cs, c.isDigit = true)
    (hzero : cs.head? = some '0' → cs = ['0']) : digits (value cs) = cs := by
  obtain ⟨c, rest, rfl⟩ := List.exists_cons_of_ne_nil hne
  by_cases hc : c = '0'
  · rw [hzero (by rw [hc, List.head?_cons])]
    decide
  · have hfirst : digitValue c ≠ 0 := fun h => hc (digitValue_inj (hdigits c (by simp)) rfl h)
    have hvalue : value (c :: rest) = digitValue c * 10 ^ rest.length + value rest := by
      rw [show c :: rest = [c] ++ rest from rfl, value_append]
      simp [value]
    have hle : 10 ^ rest.length ≤ value (c :: rest) := by
      rw [hvalue]
      exact (Nat.le_mul_of_pos_left _ (Nat.pos_of_ne_zero hfirst)).trans (Nat.le_add_right _ _)
    have hlt := value_lt hdigits
    have hpos : 0 < value (c :: rest) := lt_of_lt_of_le (by positivity) hle
    have hlow := tenPow_digitCount_le hpos
    have hhigh := lt_tenPow_digitCount (value (c :: rest))
    rw [tenPow_eq] at hlow hhigh
    have h1 : rest.length < digitCount (value (c :: rest)) :=
      (Nat.pow_lt_pow_iff_right (by norm_num)).1 (hle.trans_lt hhigh)
    have h2 : digitCount (value (c :: rest)) - 1 < (c :: rest).length :=
      (Nat.pow_lt_pow_iff_right (by norm_num)).1 (hlow.trans_lt hlt)
    refine eq_of_value_eq (fun d hd => isDigit_of_mem_digits hd) hdigits ?_ (value_digits _)
    rw [digits, length_fixed]
    simp only [List.length_cons] at h2 ⊢
    omega

/-! ## Fixed point -/

/-- A quotient by a unit in positional notation: the digits of the whole units, and those of the
rest after a point, behind a sign that only a negative number has.  A zero only begins it if it
stands alone before the point. -/
theorem exists_digits_pointed (m : ℤ) {unit s : ℕ} (hpos : 0 < unit) (hle : unit ≤ tenPow s) :
    ∃ whole fraction : List Char,
      pointed m unit s = withSign (m < 0) (whole ++ if s = 0 then [] else '.' :: fraction) ∧
      whole ≠ [] ∧ (whole.head? = some '0' → whole = ['0']) ∧
      (∀ c ∈ whole ++ fraction, c.isDigit = true) ∧ fraction.length = s ∧
      value whole = m.natAbs / unit ∧ value fraction = m.natAbs % unit := by
  by_cases hs : s = 0
  · have hunit : unit = 1 := le_antisymm (by rwa [hs] at hle) hpos
    refine ⟨digits m.natAbs, [], ?_, digits_ne_nil _, digits_eq_zero_of_head, ?_, hs.symm, ?_, ?_⟩
    · rw [pointed, if_pos hs, if_pos hs, List.append_nil, signed]
    · intro c hc
      exact isDigit_of_mem_digits (by simpa using hc)
    · rw [value_digits, hunit, Nat.div_one]
    · rw [hunit, Nat.mod_one]
      rfl
  · refine ⟨digits (m.natAbs / unit), fixed s (m.natAbs % unit), ?_, digits_ne_nil _,
      digits_eq_zero_of_head, ?_, length_fixed _ _, value_digits _, ?_⟩
    · rw [pointed, if_neg hs, if_neg hs]
    · intro c hc
      rcases List.mem_append.1 hc with hc | hc
      · exact isDigit_of_mem_digits hc
      · exact isDigit_of_mem_fixed hc
    · rw [value_fixed, Nat.mod_eq_of_lt ((Nat.mod_lt _ hpos).trans_le hle)]

/-- Where the unit is that of the last digit, the digits together are those of the number. -/
theorem exists_digits_fixedPoint (m : ℤ) (s : ℕ) :
    ∃ whole fraction : List Char,
      fixedPoint m s = withSign (m < 0) (whole ++ if s = 0 then [] else '.' :: fraction) ∧
      whole ≠ [] ∧ (whole.head? = some '0' → whole = ['0']) ∧
      (∀ c ∈ whole ++ fraction, c.isDigit = true) ∧ fraction.length = s ∧
      value (whole ++ fraction) = m.natAbs := by
  obtain ⟨whole, fraction, htext, hne, hzero, hdigits, hlength, hwhole, hfraction⟩ :=
    exists_digits_pointed m (tenPow_pos s) le_rfl
  refine ⟨whole, fraction, htext, hne, hzero, hdigits, hlength, ?_⟩
  rw [value_append, hlength, hwhole, hfraction, ← tenPow_eq, Nat.div_add_mod']

/-! ## Units up to the size of a word -/

theorem wordTenPow_le_tenPow (s : ℕ) : wordTenPow s ≤ tenPow s :=
  Nat.pow_le_pow_right (by norm_num) (toWord_le s)

theorem scaledText_of_lt (m : ℤ) {s : ℕ} (h : s < wordCount) : scaledText m s = fixedPoint m s := by
  rw [scaledText, wordTenPow_of_lt h, fixedPoint]

/-- Of zero all digits are zeros, in whatever unit. -/
theorem scaledText_zero (s : ℕ) : scaledText 0 s = fixedPoint 0 s := by
  simp only [scaledText, fixedPoint, pointed, Int.natAbs_zero, Nat.zero_div, Nat.zero_mod]

end Numeral
end Reckoner

import Mathlib
import Reckoner.Proofs.Text.Literal
import Reckoner.Proofs.Value.Rounding

/-!
# The decimal reading

`IsReading q places text` says what a reading of a rational is, without saying how it is made: its
digits are those of the nearest multiple of the last place, half to even; exactly `places` of them
stand after the point; and there is no point where there are no places, no zero at the front but
the one before the point, and no minus sign before a zero.

The reading of a value is one, for every value and every number of places that is a word of 32
bits, and it is the only one (`Value.isReading_iff`).  One can count the places off a reading
(`IsReading.places_eq`), so that no text is a reading at two different numbers of places.  A reading
is also a literal, and the reader gives the rounded number back (`Value.reading_reads_back`).  From
the size of a word on the shape stays, but the digits are those of a coarser rounding
(`Value.reading_past_word`).
-/

namespace Reckoner

/-- A rational written with `places` digits after the point, the last of them rounded. -/
inductive IsReading (q : ℚ) (places : ℕ) : List Char → Prop where
  | intro {m : ℤ} {whole fraction : List Char}
      (nearest : Rounding.IsNearest m (q * 10 ^ places))
      (whole_ne_nil : whole ≠ [])
      (whole_eq_zero : whole.head? = some '0' → whole = ['0'])
      (digits : ∀ c ∈ whole ++ fraction, c.isDigit = true)
      (length : fraction.length = places)
      (value : Numeral.value (whole ++ fraction) = m.natAbs) :
      IsReading q places
        (Numeral.withSign (m < 0) (whole ++ if places = 0 then [] else '.' :: fraction))

/-- The reading of a value is a reading of the number. -/
theorem Value.isReading_reading (v : Value) {places : ℕ} (h : places < wordCount) :
    IsReading v.toRat places (v.reading places) := by
  have hnearest := Rounding.isNearest_scaled v.toRat places
  rw [toWord_of_lt h] at hnearest
  obtain ⟨whole, fraction, htext, hwhole, hzero, hdigits, hlength, hvalue⟩ :=
    Numeral.exists_digits_fixedPoint
      (Rounding.nearest (v.toRat.num * wordTenPow places) v.toRat.den) places
  unfold reading
  simp only [Numeral.scaledText_of_lt _ h, htext]
  exact .intro hnearest hwhole hzero hdigits hlength hvalue

/-- A number has one reading at a number of places. -/
theorem IsReading.unique {q : ℚ} {places : ℕ} {text text' : List Char}
    (h : IsReading q places text) (h' : IsReading q places text') : text = text' := by
  cases h with
  | @intro m whole fraction hnearest hne hzero hdigits hlength hvalue =>
    cases h' with
    | @intro n whole' fraction' hnearest' hne' hzero' hdigits' hlength' hvalue' =>
      obtain rfl := hnearest.unique hnearest'
      have hwhole (c) (hc : c ∈ whole) := hdigits c (by simp [hc])
      have hfraction (c) (hc : c ∈ fraction) := hdigits c (by simp [hc])
      have hwhole' (c) (hc : c ∈ whole') := hdigits' c (by simp [hc])
      have hfraction' (c) (hc : c ∈ fraction') := hdigits' c (by simp [hc])
      have hlengths : fraction.length = fraction'.length := hlength.trans hlength'.symm
      obtain ⟨habove, hbelow⟩ := Numeral.value_append_inj hfraction hfraction' hlengths
        (hvalue.trans hvalue'.symm)
      rw [← Numeral.digits_value hne hwhole hzero, ← Numeral.digits_value hne' hwhole' hzero',
        habove, Numeral.eq_of_value_eq hfraction hfraction' hlengths hbelow]

/-- The reading of a value is the one text that is a reading of the number. -/
theorem Value.isReading_iff (v : Value) {places : ℕ} (hplaces : places < wordCount)
    (text : List Char) : IsReading v.toRat places text ↔ text = v.reading places := by
  constructor
  · intro h
    exact h.unique (v.isReading_reading hplaces)
  · rintro rfl
    exact v.isReading_reading hplaces

/-- How many characters stand after the point. -/
def placesShown (text : List Char) : ℕ := ((Value.cutAt (· == '.') text).2.getD []).length

namespace IsReading

variable {q r : ℚ} {m n : ℕ} {text : List Char}

theorem placesShown_eq (h : IsReading q n text) : placesShown text = n := by
  cases h with
  | @intro k whole fraction _ _ _ hdigits hlength _ =>
    -- neither the sign nor a digit is a point
    have hpoint : ∀ c ∈ Numeral.withSign (k < 0) whole, (c == '.') = false := by
      intro c hc
      by_cases hk : k < 0
      · simp only [Numeral.withSign, hk, decide_true, if_true, List.mem_cons] at hc
        rcases hc with rfl | hc
        · rfl
        · exact Value.ne_point_of_isDigit (hdigits c (by simp [hc]))
      · simp only [Numeral.withSign, hk, decide_false, Bool.false_eq_true, if_false] at hc
        exact Value.ne_point_of_isDigit (hdigits c (by simp [hc]))
    have happend (rest : List Char) : Numeral.withSign (k < 0) (whole ++ rest) =
        Numeral.withSign (k < 0) whole ++ rest := by
      by_cases hk : k < 0 <;> simp [Numeral.withSign, hk]
    rw [placesShown, happend]
    by_cases hn : n = 0
    · rw [if_pos hn, List.append_nil, Value.cutAt_of_forall hpoint, hn]
      rfl
    · rw [if_neg hn, Value.cutAt_append_cons hpoint (by decide)]
      exact hlength

/-- A text is a reading at one number of places only. -/
theorem places_eq (hm : IsReading q m text) (hn : IsReading r n text) : m = n :=
  hm.placesShown_eq.symm.trans hn.placesShown_eq

end IsReading

/-! ## A reading read back -/

/-- A run of zeros denotes zero. -/
theorem Numeral.value_eq_zero {cs : List Char} (h : ∀ c ∈ cs, c = '0') : Numeral.value cs = 0 := by
  rw [List.eq_replicate_of_mem h]
  generalize cs.length = n
  induction n with
  | zero => rfl
  | succ n ih => rw [List.replicate_succ', Numeral.value_append_singleton, ih]; rfl

namespace Value

/-- Behind the digits before the point there are, apart from it, only those after it. -/
theorem mem_behind_point {s : ℕ} {fraction : List Char} (hlength : fraction.length = s) {c : Char}
    (hc : c ≠ '.') : (c ∈ if s = 0 then [] else '.' :: fraction) ↔ c ∈ fraction := by
  split
  · rename_i hs
    rw [List.length_eq_zero_iff.1 (hlength.trans hs)]
  · rw [List.mem_cons, or_iff_right hc]

/-- A minus sign is only shown before a digit that is not a zero. -/
theorem exists_digit_of_minus_mem {m : ℤ} {unit s : ℕ} (hpos : 0 < unit) (hle : unit ≤ tenPow s)
    (h : '-' ∈ Numeral.pointed m unit s) :
    ∃ c ∈ Numeral.pointed m unit s, c.isDigit = true ∧ c ≠ '0' := by
  obtain ⟨whole, fraction, htext, -, -, hdigits, hlength, habove, hbelow⟩ :=
    Numeral.exists_digits_pointed m hpos hle
  have hmem {c : Char} (hc : c ≠ '.') :
      (c ∈ whole ++ if s = 0 then [] else '.' :: fraction) ↔ c ∈ whole ++ fraction := by
    rw [List.mem_append, List.mem_append, mem_behind_point hlength hc]
  have hnegative : m < 0 := by
    by_contra hm
    rw [htext, Numeral.withSign, if_neg (by simpa using hm), hmem (by decide)] at h
    exact absurd (hdigits _ h) (by decide)
  obtain ⟨c, hc, hc0⟩ : ∃ c ∈ whole ++ fraction, c ≠ '0' := by
    by_contra hzero
    push Not at hzero
    rw [Numeral.value_eq_zero fun c hc => hzero c (List.mem_append_left _ hc)] at habove
    rw [Numeral.value_eq_zero fun c hc => hzero c (List.mem_append_right _ hc)] at hbelow
    have hm : m.natAbs = 0 := by
      rw [← Nat.div_add_mod m.natAbs unit, ← habove, ← hbelow, Nat.mul_zero]
    omega
  have hpoint : c ≠ '.' := by
    rintro rfl
    exact absurd (hdigits _ hc) (by decide)
  refine ⟨c, ?_, hdigits c hc, hc0⟩
  rw [htext, Numeral.withSign, if_pos (by simpa using hnegative)]
  exact List.mem_cons_of_mem _ ((hmem hpoint).2 hc)

/-- **The decimal reading.**  For every value, canonical or not, the reading shows at least one
digit before the point and exactly `places` after it, no point where there are no places, and no
minus sign before a zero.  If the number of places is a word of 32 bits, it is a literal of the
number rounded to these places, a half to the even one; so a number that has no more places than
are shown is read back from it. -/
theorem reading_reads_back (v : Value) (places : ℕ) :
    ∃ (n : ℤ) (whole fraction : List Char),
      v.reading places =
        Numeral.withSign (n < 0) (whole ++ if places = 0 then [] else '.' :: fraction) ∧
      whole ≠ [] ∧ fraction.length = places ∧ (∀ c ∈ whole ++ fraction, c.isDigit = true) ∧
      ('-' ∈ v.reading places → ∃ c ∈ v.reading places, c.isDigit = true ∧ c ≠ '0') ∧
      (places < wordCount →
        Rounding.IsNearest n (v.toRat * 10 ^ places) ∧
        (∃ w, readLiteral (v.reading places) = .ok w ∧ w.Canonical ∧ w.toRat = n / 10 ^ places) ∧
        ((∃ k : ℤ, v.toRat * 10 ^ places = k) →
          ∃ w, readLiteral (v.reading places) = .ok w ∧ w.equals v = true)) := by
  set n := Rounding.nearest (v.toRat.num * wordTenPow places) v.toRat.den with hn
  have hreading : v.reading places = Numeral.scaledText n places := rfl
  have hpos := wordTenPow_pos places
  have hle := Numeral.wordTenPow_le_tenPow places
  obtain ⟨whole, fraction, htext, hwhole, -, hdigits, hlength, -⟩ :=
    Numeral.exists_digits_pointed n hpos hle
  refine ⟨n, whole, fraction, htext, hwhole, hlength, hdigits, exists_digit_of_minus_mem hpos hle,
    fun hplaces => ?_⟩
  have hnearest : Rounding.IsNearest n (v.toRat * 10 ^ places) := by
    have hscaled := Rounding.isNearest_scaled v.toRat places
    rwa [toWord_of_lt hplaces] at hscaled
  have hread : readLiteral (v.reading places) = .ok (scaled n places) := by
    rw [hreading, Numeral.scaledText_of_lt n hplaces]
    exact readLiteral_eq_ok_iff.2 (literal?_fixedPoint n places)
  refine ⟨hnearest, ⟨_, hread, canonical_ofDecimal _, toRat_scaled n places⟩, ?_⟩
  rintro ⟨k, hk⟩
  -- an integer is its own nearest one
  have hkn : k = n := by
    rw [hk] at hnearest
    exact (Rounding.isNearest_intCast k).unique hnearest
  refine ⟨_, hread, ?_⟩
  rw [equals_iff, toRat_scaled, ← hkn, ← hk, mul_div_cancel_right₀ _ (by positivity)]

/-- A decimal with a trailing zero at one place, and half a cent below zero at two. -/
theorem reading_reads_back_trailing_zero :
    1 < wordCount ∧ ((decimal ⟨150, 2⟩).toRat * 10 ^ 1 = (15 : ℤ)) ∧
      (∃ w, readLiteral ((decimal ⟨150, 2⟩).reading 1) = .ok w ∧
        w.equals (decimal ⟨150, 2⟩) = true) ∧
      (ratio (-1 / 200)).reading 2 = ['0', '.', '0', '0'] := by
  have hplaces : 1 < wordCount := by decide
  have hk : (decimal ⟨150, 2⟩).toRat * 10 ^ 1 = (15 : ℤ) := by
    rw [toRat, Decimal.toRat_eq_div]
    norm_num
  obtain ⟨n, whole, fraction, -, -, -, -, -, hrounded⟩ := reading_reads_back (decimal ⟨150, 2⟩) 1
  obtain ⟨-, -, hback⟩ := hrounded hplaces
  exact ⟨hplaces, hk, hback ⟨15, hk⟩, by decide +kernel⟩

/-- A third at the first number of places that is no word: all digits are zeros, so that the text
reads back as zero and not as the rounded number. -/
theorem reading_past_word :
    (∃ w, readLiteral ((ratio (1 / 3)).reading wordCount) = .ok w ∧ w.toRat = 0) ∧
      ¬∃ n : ℤ, Rounding.IsNearest n (1 / 3 * 10 ^ wordCount) ∧
        ∃ w, readLiteral ((ratio (1 / 3)).reading wordCount) = .ok w ∧
          w.toRat = n / 10 ^ wordCount := by
  have hnearest :
      Rounding.nearest ((1 / 3 : ℚ).num * wordTenPow wordCount) (1 / 3 : ℚ).den = 0 := by
    decide +kernel
  have hreading : (ratio (1 / 3)).reading wordCount = Numeral.fixedPoint 0 wordCount := by
    rw [← Numeral.scaledText_zero, ← hnearest]
    rfl
  have hread : readLiteral ((ratio (1 / 3)).reading wordCount) = .ok (scaled 0 wordCount) := by
    rw [hreading]
    exact readLiteral_eq_ok_iff.2 (literal?_fixedPoint 0 wordCount)
  have hvalue : (scaled 0 wordCount).toRat = 0 := by rw [toRat_scaled, Int.cast_zero, zero_div]
  refine ⟨⟨_, hread, hvalue⟩, ?_⟩
  rintro ⟨n, hn, w, hw, hback⟩
  obtain rfl : scaled 0 wordCount = w := Except.ok.inj (hread.symm.trans hw)
  have hunit : (10 : ℚ) ^ wordCount ≠ 0 := by positivity
  rw [hvalue, eq_comm, div_eq_zero_iff, or_iff_left hunit] at hback
  -- zero is too far from a third of this power of ten
  have hlarge : (10 : ℚ) ^ 1 ≤ 10 ^ wordCount := pow_le_pow_right₀ (by norm_num) (by decide)
  have hclose := (abs_le.1 hn.abs_sub_le).1
  rw [hback] at hclose
  rw [pow_one] at hlarge
  linarith

end Value
end Reckoner

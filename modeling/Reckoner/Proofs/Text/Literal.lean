import Mathlib
import Reckoner.Proofs.Text.Numeral
import Reckoner.Proofs.Value.Canonical
import Reckoner.Value.Literal

/-!
# The shape of a literal

`literal?` cuts a text at a mark and at a point and checks what it has cut out.
`LiteralParts` is the other direction: the parts from which a literal is put together.
`literal?_eq_ok_iff` says that the texts the reader accepts are the well-formed parts
after an optional sign, with the value the parts have.  From it come

* `literal?_minus`: a minus sign before an unsigned literal negates its value;
* `literal?_fixedPoint`: the text of a mantissa and a scale, trailing zeros included,
  reads as the canonical value of the pair.
-/

namespace Reckoner
namespace Value

/-! ## Cutting a text -/

theorem cutAt_of_forall {p : Char → Bool} {cs : List Char} (h : ∀ c ∈ cs, p c = false) :
    cutAt p cs = (cs, none) := by
  have hdrop : (cs.dropWhile fun c => !p c) = [] := by
    rw [List.dropWhile_eq_nil_iff]
    intro c hc
    simp [h c hc]
  rw [cutAt, hdrop]

theorem cutAt_append_cons {p : Char → Bool} {cs rest : List Char} {d : Char}
    (h : ∀ c ∈ cs, p c = false) (hd : p d = true) :
    cutAt p (cs ++ d :: rest) = (cs, some rest) := by
  have hpass : ∀ c ∈ cs, (!p c) = true := fun c hc => by simp [h c hc]
  rw [cutAt, List.dropWhile_append_of_pos hpass, List.dropWhile_cons_of_neg (by simp [hd]),
    List.takeWhile_append_of_pos hpass, List.takeWhile_cons_of_neg (by simp [hd]),
    List.append_nil]

theorem eq_of_cutAt_none {p : Char → Bool} {cs before : List Char}
    (h : cutAt p cs = (before, none)) : cs = before := by
  rw [cutAt] at h
  split at h
  · exact (Prod.mk.inj h).1
  · cases (Prod.mk.inj h).2

theorem eq_of_cutAt_some {p : Char → Bool} {cs before after : List Char}
    (h : cutAt p cs = (before, some after)) : ∃ d, p d = true ∧ cs = before ++ d :: after := by
  rw [cutAt] at h
  split at h
  · cases (Prod.mk.inj h).2
  · rename_i d rest hdrop
    obtain ⟨rfl, hrest⟩ := Prod.mk.inj h
    cases hrest
    refine ⟨d, ?_, ?_⟩
    · have hhead := List.head?_dropWhile_not (fun c => !p c) cs
      rw [hdrop] at hhead
      simpa using hhead
    · rw [← hdrop, List.takeWhile_append_dropWhile]

/-! ## The parts of a literal -/

/-- What stands before and after the point, and the mark of a power of ten with the text
after it. -/
structure LiteralParts where
  whole : List Char
  fraction? : Option (List Char)
  exponent? : Option (Char × List Char)

namespace LiteralParts

/-- The digits after the point. -/
def fraction (p : LiteralParts) : List Char := p.fraction?.getD []

/-- The digits and the point. -/
def mantissa (p : LiteralParts) : List Char :=
  p.whole ++ match p.fraction? with
    | none => []
    | some fraction => '.' :: fraction

/-- The literal without its sign. -/
def chars (p : LiteralParts) : List Char :=
  p.mantissa ++ match p.exponent? with
    | none => []
    | some (mark, text) => mark :: text

/-- The parts make up a literal whose power of ten is `e`: there are digits after the
point, or before it if there is no point, and the power of ten can be read. -/
structure WellFormed (p : LiteralParts) (e : Int) : Prop where
  whole_digits : ∀ c ∈ p.whole, c.isDigit = true
  fraction_digits : ∀ c ∈ p.fraction, c.isDigit = true
  last_ne_nil : p.fraction?.getD p.whole ≠ []
  exponent : match p.exponent? with
    | none => e = 0
    | some (mark, text) => isExponentMark mark = true ∧ readExponent text = .ok e

end LiteralParts

/-- The value `m / 10 ^ s` for a scale of either sign. -/
def atScale (m : Int) : Int → Value
  | .ofNat scale => scaled m scale
  | .negSucc excess => integer (m * tenPow (excess + 1))

/-- The value of the parts after a sign. -/
def LiteralParts.value (p : LiteralParts) (negative : Bool) (e : Int) : Value :=
  let magnitude : Int := Numeral.value (p.whole ++ p.fraction)
  atScale (if negative then -magnitude else magnitude) (p.fraction.length - e)

theorem canonical_atScale (m s : Int) : (atScale m s).Canonical := by
  cases s with
  | ofNat s => exact canonical_ofDecimal ⟨m, s⟩
  | negSucc s => trivial

theorem toRat_atScale (m s : Int) : (atScale m s).toRat = m * 10 ^ (-s) := by
  cases s with
  | ofNat s =>
    rw [atScale, toRat_scaled, Int.ofNat_eq_natCast, zpow_neg, zpow_natCast, div_eq_mul_inv]
  | negSucc s =>
    rw [atScale, toRat, tenPow_eq, Int.neg_negSucc, zpow_natCast]
    push_cast
    rfl

theorem neg_scaled (m : Int) (s : Nat) : scaled (-m) s = -scaled m s := ofDecimal_neg ⟨m, s⟩

theorem neg_atScale (m s : Int) : atScale (-m) s = -atScale m s := by
  cases s with
  | ofNat s => exact neg_scaled m s
  | negSucc s =>
    show integer (-m * _) = integer (-(m * _))
    rw [Int.neg_mul]

/-- The reader once the text has been cut. -/
theorem literal?_eq_of_cut {cs body mantissa whole : List Char} {negative : Bool}
    {exponent? fraction? : Option (List Char)} (hcs : cutSign cs = (negative, body))
    (hbody : cutAt isExponentMark body = (mantissa, exponent?))
    (hmantissa : cutAt (· == '.') mantissa = (whole, fraction?)) :
    literal? cs =
      if (fraction?.getD whole).isEmpty || !allDigits (fraction?.getD whole) || !allDigits whole
      then .error .invalidNumber
      else (exponent?.elim (.ok 0) readExponent).map
        (LiteralParts.value ⟨whole, fraction?, none⟩ negative) := by
  unfold literal?
  rw [hcs]
  simp only [hbody, hmantissa]
  split
  · rfl
  · cases exponent? with
    | none =>
      simp only [Option.elim_none, Except.map, LiteralParts.value, LiteralParts.fraction, bind,
        Except.bind]
      cases ((fraction?.getD []).length : Int) - 0 <;> rfl
    | some text =>
      simp only [Option.elim_some]
      cases readExponent text with
      | error cause => rfl
      | ok e =>
        simp only [Except.map, LiteralParts.value, LiteralParts.fraction, bind, Except.bind]
        cases ((fraction?.getD []).length : Int) - e <;> rfl

/-! ## Characters of the parts -/

theorem allDigits_iff {cs : List Char} : allDigits cs = true ↔ ∀ c ∈ cs, c.isDigit = true :=
  List.all_eq_true

theorem ne_point_of_isDigit {c : Char} (hc : c.isDigit = true) : (c == '.') = false := by
  rw [beq_eq_false_iff_ne]
  rintro rfl
  exact absurd hc (by decide)

theorem not_isExponentMark_of_isDigit {c : Char} (hc : c.isDigit = true) :
    isExponentMark c = false := by
  rw [isExponentMark, Bool.or_eq_false_iff, beq_eq_false_iff_ne, beq_eq_false_iff_ne]
  constructor <;> rintro rfl <;> exact absurd hc (by decide)

namespace LiteralParts

variable {p : LiteralParts} {e : Int}

theorem WellFormed.mem_mantissa (h : p.WellFormed e) {c : Char} (hc : c ∈ p.mantissa) :
    c.isDigit = true ∨ c = '.' := by
  obtain ⟨whole, fraction?, exponent?⟩ := p
  rcases List.mem_append.1 hc with hc | hc
  · exact .inl (h.whole_digits c hc)
  · cases fraction? with
    | none => cases hc
    | some fraction =>
      rcases List.mem_cons.1 hc with rfl | hc
      · exact .inr rfl
      · exact .inl (h.fraction_digits c hc)

theorem WellFormed.cutAt_chars (h : p.WellFormed e) :
    cutAt isExponentMark p.chars = (p.mantissa, p.exponent?.map Prod.snd) := by
  have hmantissa : ∀ c ∈ p.mantissa, isExponentMark c = false := by
    intro c hc
    rcases h.mem_mantissa hc with hc | rfl
    · exact not_isExponentMark_of_isDigit hc
    · rfl
  have hexponent := h.exponent
  rw [chars]
  cases hp : p.exponent? with
  | none => rw [List.append_nil, cutAt_of_forall hmantissa, Option.map_none]
  | some exponent =>
    rw [hp] at hexponent
    exact cutAt_append_cons hmantissa hexponent.1

theorem WellFormed.cutAt_mantissa (h : p.WellFormed e) :
    cutAt (· == '.') p.mantissa = (p.whole, p.fraction?) := by
  have hwhole : ∀ c ∈ p.whole, (c == '.') = false := fun c hc =>
    ne_point_of_isDigit (h.whole_digits c hc)
  rw [mantissa]
  cases hp : p.fraction? with
  | none => rw [List.append_nil, cutAt_of_forall hwhole]
  | some fraction => exact cutAt_append_cons hwhole rfl

theorem WellFormed.mantissa_ne_nil (h : p.WellFormed e) : p.mantissa ≠ [] := by
  have hlast := h.last_ne_nil
  rw [mantissa]
  cases hf : p.fraction? with
  | none =>
    rw [hf] at hlast
    rw [List.append_nil]
    exact hlast
  | some fraction => exact List.append_ne_nil_of_right_ne_nil _ (List.cons_ne_nil _ _)

/-- An unsigned literal begins with a digit or with the point. -/
theorem WellFormed.exists_cons (h : p.WellFormed e) :
    ∃ c rest, p.chars = c :: rest ∧ (c.isDigit = true ∨ c = '.') := by
  obtain ⟨c, rest, hc⟩ := List.exists_cons_of_ne_nil h.mantissa_ne_nil
  refine ⟨c, _, by rw [chars, hc]; rfl, h.mem_mantissa ?_⟩
  rw [hc]
  exact List.mem_cons_self

end LiteralParts

theorem LiteralParts.mantissa_of_cutAt {mantissa whole : List Char}
    {fraction? : Option (List Char)} (h : cutAt (· == '.') mantissa = (whole, fraction?))
    (exponent? : Option (Char × List Char)) :
    mantissa = LiteralParts.mantissa ⟨whole, fraction?, exponent?⟩ := by
  cases fraction? with
  | none => rw [eq_of_cutAt_none h, LiteralParts.mantissa, List.append_nil]
  | some fraction =>
    obtain ⟨d, hd, heq⟩ := eq_of_cutAt_some h
    rw [eq_of_beq hd] at heq
    exact heq

/-- The texts that the reader accepts, and what it makes of them. -/
theorem literal?_eq_ok_iff {cs : List Char} {v : Value} :
    literal? cs = .ok v ↔ ∃ (p : LiteralParts) (e : Int),
      (cutSign cs).2 = p.chars ∧ p.WellFormed e ∧ v = p.value (cutSign cs).1 e := by
  constructor
  · intro h
    rcases hcs : cutSign cs with ⟨negative, body⟩
    rcases hbody : cutAt isExponentMark body with ⟨mantissa, exponent?⟩
    rcases hmantissa : cutAt (· == '.') mantissa with ⟨whole, fraction?⟩
    rw [literal?_eq_of_cut hcs hbody hmantissa] at h
    split at h
    · cases h
    rename_i hgood
    simp only [Bool.or_eq_true, Bool.not_eq_true', not_or, Bool.not_eq_false,
      List.isEmpty_iff, allDigits_iff] at hgood
    obtain ⟨⟨hne, hlast⟩, hwhole⟩ := hgood
    have hfraction : ∀ c ∈ fraction?.getD [], c.isDigit = true := by
      cases fraction? with
      | none =>
        intro c hc
        simp at hc
      | some fraction => exact hlast
    cases exponent? with
    | none =>
      cases h
      refine ⟨⟨whole, fraction?, none⟩, 0, ?_, ⟨hwhole, hfraction, hne, rfl⟩, rfl⟩
      rw [LiteralParts.chars, List.append_nil, ← LiteralParts.mantissa_of_cutAt hmantissa]
      exact eq_of_cutAt_none hbody
    | some text =>
      obtain ⟨mark, hmark, heq⟩ := eq_of_cutAt_some hbody
      rw [Option.elim_some] at h
      cases htext : readExponent text with
      | error cause =>
        rw [htext] at h
        cases h
      | ok e =>
        rw [htext] at h
        cases h
        refine ⟨⟨whole, fraction?, some (mark, text)⟩, e, ?_,
          ⟨hwhole, hfraction, hne, hmark, htext⟩, rfl⟩
        rw [LiteralParts.chars, ← LiteralParts.mantissa_of_cutAt hmantissa]
        exact heq
  · rintro ⟨p, e, hchars, hp, rfl⟩
    have hcut : cutSign cs = ((cutSign cs).1, p.chars) := by rw [← hchars]
    have hlast : ∀ c ∈ p.fraction?.getD p.whole, c.isDigit = true := by
      have hfraction := hp.fraction_digits
      rw [LiteralParts.fraction] at hfraction
      cases hf : p.fraction? with
      | none => exact hp.whole_digits
      | some fraction =>
        rw [hf] at hfraction
        exact hfraction
    have hexponent := hp.exponent
    rw [literal?_eq_of_cut hcut hp.cutAt_chars hp.cutAt_mantissa, if_neg]
    · cases he : p.exponent? with
      | none =>
        rw [he] at hexponent
        rw [hexponent]
        rfl
      | some exponent =>
        rw [he] at hexponent
        rw [Option.map_some, Option.elim_some, hexponent.2]
        rfl
    · simp only [Bool.or_eq_true, Bool.not_eq_true', not_or, Bool.not_eq_false,
        List.isEmpty_iff, allDigits_iff]
      exact ⟨⟨hp.last_ne_nil, hlast⟩, hp.whole_digits⟩

/-! ## Signs -/

/-- A text is what is left after its sign, with no sign, a plus or a minus before it. -/
theorem cutSign_cases (cs : List Char) :
    cutSign cs = (false, cs) ∨ (∃ rest, cs = '+' :: rest ∧ cutSign cs = (false, rest)) ∨
      ∃ rest, cs = '-' :: rest ∧ cutSign cs = (true, rest) := by
  unfold cutSign
  split
  · exact .inr (.inr ⟨_, rfl, rfl⟩)
  · exact .inr (.inl ⟨_, rfl, rfl⟩)
  · exact .inl rfl

theorem cutSign_cons {c : Char} {rest : List Char} (h : c.isDigit = true ∨ c = '.') :
    cutSign (c :: rest) = (false, c :: rest) := by
  have hplus : c ≠ '+' := by rintro rfl; simp at h
  have hminus : c ≠ '-' := by rintro rfl; simp at h
  rw [cutSign] <;> simp_all

theorem LiteralParts.WellFormed.cutSign_chars {p : LiteralParts} {e : Int}
    (h : p.WellFormed e) : cutSign p.chars = (false, p.chars) := by
  obtain ⟨c, rest, hc, hstart⟩ := h.exists_cons
  rw [hc]
  exact cutSign_cons hstart

theorem cutSign_withSign {negative : Bool} {cs : List Char} (h : cutSign cs = (false, cs)) :
    cutSign (Numeral.withSign negative cs) = (negative, cs) := by
  cases negative with
  | false => exact h
  | true => rfl

theorem LiteralParts.value_true (p : LiteralParts) (e : Int) :
    p.value true e = -p.value false e := neg_atScale _ _

/-- A minus sign before an unsigned literal negates its value. -/
theorem literal?_minus {body : List Char} (h : cutSign body = (false, body)) :
    literal? ('-' :: body) = (literal? body).map Neg.neg := by
  rcases hbody : cutAt isExponentMark body with ⟨mantissa, exponent?⟩
  rcases hmantissa : cutAt (· == '.') mantissa with ⟨whole, fraction?⟩
  have hminus : cutSign ('-' :: body) = (true, body) := rfl
  rw [literal?_eq_of_cut hminus hbody hmantissa, literal?_eq_of_cut h hbody hmantissa]
  split
  · rfl
  · cases exponent?.elim (.ok 0) readExponent with
    | error cause => rfl
    | ok e => exact congrArg Except.ok (LiteralParts.value_true _ e)

theorem readLiteral_eq_ok_iff {cs : List Char} {v : Value} :
    readLiteral cs = .ok v ↔ literal? cs = .ok v := by
  rw [readLiteral]
  cases literal? cs with
  | error cause => constructor <;> intro h <;> cases h
  | ok w => constructor <;> intro h <;> cases h <;> rfl

/-! ## Exponents -/

/-- An exponent that can be read is digits after an optional sign. -/
theorem digits_of_readExponent {text : List Char} {e : Int} (h : readExponent text = .ok e) :
    (cutSign text).2 ≠ [] ∧ ∀ c ∈ (cutSign text).2, c.isDigit = true := by
  rw [readExponent] at h
  split at h
  rename_i negative digits hcut
  split at h
  · cases h
  · rename_i hgood
    rw [hcut]
    simpa [allDigits_iff] using hgood

/-! ## Numerals as literals -/

theorem scaled_zero (n : Int) : scaled n 0 = integer n :=
  eq_of_toRat_eq (canonical_ofDecimal _) trivial (by rw [toRat_scaled]; simp [toRat])

/-- The digits around the point, as parts of a literal. -/
theorem exists_parts_fixedPoint (m : Int) (s : Nat) :
    ∃ p : LiteralParts, p.WellFormed 0 ∧
      Numeral.fixedPoint m s = Numeral.withSign (m < 0) p.chars ∧
      Numeral.value (p.whole ++ p.fraction) = m.natAbs ∧ p.fraction.length = s := by
  obtain ⟨whole, fraction, htext, hwhole, -, hdigits, hlength, hvalue⟩ :=
    Numeral.exists_digits_fixedPoint m s
  have hwholeDigits : ∀ c ∈ whole, c.isDigit = true := fun c hc => hdigits c (by simp [hc])
  have hfractionDigits : ∀ c ∈ fraction, c.isDigit = true := fun c hc => hdigits c (by simp [hc])
  by_cases hs : s = 0
  · obtain rfl : fraction = [] := List.length_eq_zero_iff.1 (hlength.trans hs)
    refine ⟨⟨whole, none, none⟩, ⟨hwholeDigits, hfractionDigits, hwhole, rfl⟩, ?_, hvalue, hlength⟩
    rw [htext, if_pos hs, LiteralParts.chars, LiteralParts.mantissa]
    simp
  · have hfraction : fraction ≠ [] := by
      rintro rfl
      exact hs hlength.symm
    refine ⟨⟨whole, some fraction, none⟩, ⟨hwholeDigits, hfractionDigits, hfraction, rfl⟩, ?_,
      hvalue, hlength⟩
    rw [htext, if_neg hs, LiteralParts.chars, LiteralParts.mantissa]
    simp

/-- The text of a mantissa and a scale reads as the canonical value of the pair. -/
theorem literal?_fixedPoint (m : Int) (s : Nat) :
    literal? (Numeral.fixedPoint m s) = .ok (scaled m s) := by
  obtain ⟨p, hp, htext, hvalue, hlength⟩ := exists_parts_fixedPoint m s
  have hsign : (if decide (m < 0) = true then -(m.natAbs : Int) else m.natAbs) = m := by
    simp only [decide_eq_true_eq]
    split <;> omega
  have hcut : cutSign (Numeral.withSign (m < 0) p.chars) = (decide (m < 0), p.chars) :=
    cutSign_withSign hp.cutSign_chars
  rw [literal?_eq_ok_iff, htext, hcut]
  refine ⟨p, 0, rfl, hp, ?_⟩
  rw [LiteralParts.value, hvalue, hlength, hsign]
  rfl

end Value
end Reckoner

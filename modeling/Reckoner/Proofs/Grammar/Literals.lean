import Mathlib
import Reckoner.Proofs.Grammar.Reread

/-!
# The language of literals

A number may be written with a sign, with digits before a point, and with a power of ten
(`WrittenNumber`).  What can be written like that is a regular language, `literalPattern`; the
reader knows nothing of the pattern, it cuts a text at the first mark and at the first point.
`literal_language` says that the two agree: a text is read if it can be written as a number whose
exponent is not too large, and its value is then that number.  The parser reads the same texts as
entries, although it takes the sign for an operator and stops at other characters.
-/

namespace Reckoner

/-! ## Patterns -/

/-- The pattern matches the texts that `spell` gives, and no others. -/
def Spells {α : Type} (r : RegularExpression Char) (spell : α → List Char) : Prop :=
  ∀ text, text ∈ r.matches' ↔ ∃ a, spell a = text

namespace Spells

variable {α β : Type} {r s : RegularExpression Char} {f : α → List Char} {g : β → List Char}

/-- Another way to name the same texts. -/
theorem comp (h : Spells r f) {k : β → α} (hk : Function.Surjective k)
    (hg : ∀ b, g b = f (k b)) : Spells r g := by
  intro text
  rw [h text, hk.exists]
  simp only [hg]

theorem mul (hr : Spells r f) (hs : Spells s g) :
    Spells (r * s) fun x : α × β => f x.1 ++ g x.2 := by
  intro text
  simp only [RegularExpression.matches'_mul, Language.mem_mul, hr _, hs _, Prod.exists]
  constructor
  · rintro ⟨_, ⟨a, rfl⟩, _, ⟨b, rfl⟩, rfl⟩
    exact ⟨a, b, rfl⟩
  · rintro ⟨a, b, rfl⟩
    exact ⟨f a, ⟨a, rfl⟩, g b, ⟨b, rfl⟩, rfl⟩

theorem optional (hr : Spells r f) : Spells (1 + r) fun a? : Option α => a?.elim [] f := by
  intro text
  rw [RegularExpression.matches'_add, Language.mem_add, RegularExpression.matches'_epsilon,
    Language.mem_one, hr text, Option.exists]
  exact or_congr_left eq_comm

theorem char (c : Char) : Spells (.char c) fun _ : Unit => [c] := by
  intro text
  rw [RegularExpression.matches'_char]
  exact ⟨fun h => ⟨(), (Set.mem_singleton_iff.1 h).symm⟩,
    fun ⟨_, h⟩ => Set.mem_singleton_iff.2 h.symm⟩

end Spells

/-- One of some characters. -/
def oneOf (cs : List Char) : RegularExpression Char := (cs.map RegularExpression.char).sum

theorem spells_oneOf (cs : List Char) : Spells (oneOf cs) fun c : {c // c ∈ cs} => [c.1] := by
  intro text
  rw [Subtype.exists]
  induction cs with
  | nil => simp [oneOf, RegularExpression.matches'_zero, Language.notMem_zero]
  | cons c cs ih =>
    have hsplit : oneOf (c :: cs) = .char c + oneOf cs := List.sum_cons
    rw [hsplit, RegularExpression.matches'_add, Language.mem_add, ih, Spells.char c text]
    simp

theorem spells_star_oneOf (cs : List Char) :
    Spells (oneOf cs).star fun t : {t : List Char // ∀ c ∈ t, c ∈ cs} => t.1 := by
  intro text
  rw [RegularExpression.matches'_star, Language.mem_kstar]
  constructor
  · rintro ⟨words, rfl, hwords⟩
    refine ⟨⟨words.flatten, fun c hc => ?_⟩, rfl⟩
    obtain ⟨word, hword, hc⟩ := List.mem_flatten.1 hc
    obtain ⟨⟨d, hd⟩, rfl⟩ := (spells_oneOf cs word).1 (hwords word hword)
    rwa [List.mem_singleton.1 hc]
  · rintro ⟨⟨t, ht⟩, rfl⟩
    have hflatten : (t.map fun c => [c]).flatten = t := by
      rw [← List.flatMap_def, List.flatMap_singleton']
    refine ⟨t.map fun c => [c], hflatten.symm, fun word hword => ?_⟩
    obtain ⟨c, hc, rfl⟩ := List.mem_map.1 hword
    exact (spells_oneOf cs _).2 ⟨⟨c, ht c hc⟩, rfl⟩

/-! ## Written numbers -/

/-- The sign of a number or of an exponent, as it is written. -/
inductive WrittenSign where
  | blank
  | plus
  | minus
  deriving DecidableEq, Repr

namespace WrittenSign

def chars : WrittenSign → List Char
  | blank => []
  | plus => ['+']
  | minus => ['-']

def apply (s : WrittenSign) (n : ℕ) : ℤ := if s = minus then -n else n

theorem natAbs_apply (s : WrittenSign) (n : ℕ) : (s.apply n).natAbs = n := by
  rw [apply]
  split
  · rw [Int.natAbs_neg, Int.natAbs_natCast]
  · exact Int.natAbs_natCast n

end WrittenSign

/-- Digits, at least one. -/
structure DigitRun where
  chars : List Char
  ne_nil : chars ≠ []
  isDigit : ∀ c ∈ chars, c.isDigit = true

/-- A power of ten with the mark before it. -/
structure WrittenExponent where
  mark : Char
  isMark : Value.isExponentMark mark = true
  sign : WrittenSign
  digits : DigitRun

namespace WrittenExponent

/-- The text after the mark. -/
def text (x : WrittenExponent) : List Char := x.sign.chars ++ x.digits.chars

def value (x : WrittenExponent) : ℤ := x.sign.apply (Numeral.value x.digits.chars)

end WrittenExponent

/-- A number as it is written: its sign, the digits before the point if there is a point, the
digits after the point or all of them, and its power of ten. -/
structure WrittenNumber where
  sign : WrittenSign
  whole? : Option {cs : List Char // ∀ c ∈ cs, c.isDigit = true}
  last : DigitRun
  exponent? : Option WrittenExponent

namespace WrittenNumber

def chars (w : WrittenNumber) : List Char :=
  w.sign.chars ++ (w.whole?.elim [] (fun whole => whole.1 ++ ['.']) ++
    (w.last.chars ++ w.exponent?.elim [] fun x => x.mark :: x.text))

/-- All digits, without the point. -/
def digits (w : WrittenNumber) : List Char := w.whole?.elim [] Subtype.val ++ w.last.chars

/-- The number of digits after the point. -/
def places (w : WrittenNumber) : ℕ := w.whole?.elim 0 fun _ => w.last.chars.length

def exponent (w : WrittenNumber) : ℤ := w.exponent?.elim 0 WrittenExponent.value

/-- The number that is meant. -/
def number (w : WrittenNumber) : ℚ :=
  w.sign.apply (Numeral.value w.digits) * 10 ^ (w.exponent - w.places)

end WrittenNumber

/-! ## The pattern of literals -/

def digitChars : List Char := ['0', '1', '2', '3', '4', '5', '6', '7', '8', '9']

/-- The pattern of a sign that may be missing. -/
def signPattern : RegularExpression Char := 1 + oneOf ['-', '+']

/-- The pattern of at least one digit. -/
def digitsPattern : RegularExpression Char := oneOf digitChars * (oneOf digitChars).star

/-- The pattern `[-+]?([0-9]*\.)?[0-9]+([eE][-+]?[0-9]+)?`. -/
def literalPattern : RegularExpression Char :=
  signPattern * ((1 + (oneOf digitChars).star * .char '.') *
    (digitsPattern * (1 + oneOf ['e', 'E'] * (signPattern * digitsPattern))))

theorem isDigit_iff_mem {c : Char} : c.isDigit = true ↔ c ∈ digitChars := by
  constructor
  · intro hc
    have hlt := Numeral.digitValue_lt hc
    have hchar : c = Nat.digitChar (Numeral.digitValue c) :=
      Numeral.digitValue_inj hc (Numeral.isDigit_digitChar hlt)
        (Numeral.digitValue_digitChar hlt).symm
    rw [hchar]
    generalize Numeral.digitValue c = d at hlt
    interval_cases d <;> decide
  · have hall : digitChars.all Char.isDigit = true := by decide
    exact List.all_eq_true.1 hall c

theorem spells_signPattern : Spells signPattern WrittenSign.chars := by
  intro text
  rw [signPattern, (spells_oneOf ['-', '+']).optional text]
  constructor
  · rintro ⟨_ | ⟨c, hc⟩, rfl⟩
    · exact ⟨.blank, rfl⟩
    · simp only [List.mem_cons, List.not_mem_nil, or_false] at hc
      rcases hc with rfl | rfl
      · exact ⟨.minus, rfl⟩
      · exact ⟨.plus, rfl⟩
  · rintro ⟨_ | _ | _, rfl⟩
    · exact ⟨none, rfl⟩
    · exact ⟨some ⟨'+', by simp⟩, rfl⟩
    · exact ⟨some ⟨'-', by simp⟩, rfl⟩

theorem spells_digitsPattern : Spells digitsPattern DigitRun.chars := by
  intro text
  rw [digitsPattern, ((spells_oneOf digitChars).mul (spells_star_oneOf digitChars)) text]
  simp only [Prod.exists, Subtype.exists]
  constructor
  · rintro ⟨c, hc, t, ht, rfl⟩
    refine ⟨⟨c :: t, List.cons_ne_nil c t, fun d hd => ?_⟩, rfl⟩
    rcases List.mem_cons.1 hd with rfl | hd
    · exact isDigit_iff_mem.2 hc
    · exact isDigit_iff_mem.2 (ht d hd)
  · rintro ⟨⟨t, hne, ht⟩, rfl⟩
    obtain ⟨c, t, rfl⟩ := List.exists_cons_of_ne_nil hne
    exact ⟨c, isDigit_iff_mem.1 (ht c List.mem_cons_self), t,
      fun d hd => isDigit_iff_mem.1 (ht d (List.mem_cons_of_mem c hd)), rfl⟩

/-- The digits before the point, and the point. -/
theorem spells_wholePattern : Spells ((oneOf digitChars).star * .char '.')
    fun whole : {cs : List Char // ∀ c ∈ cs, c.isDigit = true} => whole.1 ++ ['.'] := by
  refine ((spells_star_oneOf digitChars).mul (.char '.')).comp (k := fun whole =>
    (⟨whole.1, fun c hc => isDigit_iff_mem.1 (whole.2 c hc)⟩, ())) ?_ fun _ => rfl
  rintro ⟨⟨cs, hcs⟩, -⟩
  exact ⟨⟨cs, fun c hc => isDigit_iff_mem.2 (hcs c hc)⟩, rfl⟩

theorem isExponentMark_iff_mem {c : Char} : Value.isExponentMark c = true ↔ c ∈ ['e', 'E'] := by
  simp [Value.isExponentMark]

theorem spells_exponentPattern : Spells (oneOf ['e', 'E'] * (signPattern * digitsPattern))
    fun x : WrittenExponent => x.mark :: x.text := by
  refine ((spells_oneOf ['e', 'E']).mul (spells_signPattern.mul spells_digitsPattern)).comp
    (k := fun x => (⟨x.mark, isExponentMark_iff_mem.1 x.isMark⟩, x.sign, x.digits)) ?_ fun _ => rfl
  rintro ⟨⟨mark, hmark⟩, sign, digits⟩
  exact ⟨⟨mark, isExponentMark_iff_mem.2 hmark, sign, digits⟩, rfl⟩

/-- The pattern of literals matches what can be written as a number. -/
theorem spells_literalPattern : Spells literalPattern WrittenNumber.chars := by
  refine (spells_signPattern.mul (spells_wholePattern.optional.mul
    (spells_digitsPattern.mul spells_exponentPattern.optional))).comp
    (k := fun w => (w.sign, w.whole?, w.last, w.exponent?)) ?_ fun _ => rfl
  rintro ⟨sign, whole?, last, exponent?⟩
  exact ⟨⟨sign, whole?, last, exponent?⟩, rfl⟩

/-! ## Cutting a written number -/

theorem DigitRun.cutSign_chars (d : DigitRun) : Value.cutSign d.chars = (false, d.chars) := by
  obtain ⟨c, cs, hcs⟩ := List.exists_cons_of_ne_nil d.ne_nil
  have hc : c.isDigit = true := d.isDigit c (by rw [hcs]; exact List.mem_cons_self)
  rw [hcs]
  exact Value.cutSign_cons (.inl hc)

namespace WrittenSign

open Value

theorem cutSign_append (s : WrittenSign) {cs : List Char} (h : cutSign cs = (false, cs)) :
    cutSign (s.chars ++ cs) = (decide (s = minus), cs) := by
  cases s with
  | blank => exact h
  | plus => rfl
  | minus => rfl

theorem exists_chars_append (cs : List Char) :
    ∃ s : WrittenSign, s.chars ++ (cutSign cs).2 = cs := by
  rcases cutSign_cases cs with hcut | ⟨rest, rfl, hcut⟩ | ⟨rest, rfl, hcut⟩
  · exact ⟨blank, by rw [hcut]; rfl⟩
  · exact ⟨plus, by rw [hcut]; rfl⟩
  · exact ⟨minus, by rw [hcut]; rfl⟩

end WrittenSign

namespace WrittenExponent

open Value

/-- An exponent is read unless it is too large. -/
theorem readExponent_text (x : WrittenExponent) :
    ∃ cause, readExponent x.text =
      if x.value.natAbs ≤ literalExponentLimit then .ok x.value else .error cause := by
  have hgood : ¬ (x.digits.chars.isEmpty || !allDigits x.digits.chars) = true := by
    simp [x.digits.ne_nil, allDigits_iff.2 x.digits.isDigit]
  rw [readExponent, text]
  simp only [x.sign.cutSign_append x.digits.cutSign_chars, if_neg hgood]
  rw [value, WrittenSign.natAbs_apply]
  generalize Numeral.value x.digits.chars = n
  by_cases hn : n ≤ literalExponentLimit
  · have hword : n < wordLimit := hn.trans_lt (by decide)
    have hfits : ¬ (wordLimit < n || (n == wordLimit && !decide (x.sign = .minus))) = true := by
      simp [hword.ne, hword.le]
    refine ⟨.invalidNumber, ?_⟩
    rw [if_neg hfits, if_neg (Nat.not_lt.2 hn), if_pos hn, WrittenSign.apply]
    simp only [decide_eq_true_eq]
  · simp only [if_neg hn, if_pos (Nat.not_le.1 hn)]
    split
    · exact ⟨_, rfl⟩
    · exact ⟨_, rfl⟩

/-- An exponent that is read is written with a mark before it. -/
theorem exists_text {mark : Char} (hmark : isExponentMark mark = true) {text : List Char} {e : ℤ}
    (h : readExponent text = .ok e) : ∃ x : WrittenExponent, x.mark = mark ∧ x.text = text := by
  obtain ⟨hne, hdigits⟩ := digits_of_readExponent h
  obtain ⟨sign, hsign⟩ := WrittenSign.exists_chars_append text
  exact ⟨⟨mark, hmark, sign, ⟨_, hne, hdigits⟩⟩, rfl, hsign⟩

end WrittenExponent

namespace WrittenNumber

open Value

/-- The parts of a number between its sign and its power of ten. -/
def unscaled (w : WrittenNumber) : LiteralParts where
  whole := w.whole?.elim w.last.chars Subtype.val
  fraction? := w.whole?.map fun _ => w.last.chars
  exponent? := none

theorem wellFormed_unscaled (w : WrittenNumber) : w.unscaled.WellFormed 0 := by
  obtain ⟨sign, whole?, last, exponent?⟩ := w
  cases whole? with
  | none => exact ⟨last.isDigit, by simp [unscaled, LiteralParts.fraction], last.ne_nil, rfl⟩
  | some whole => exact ⟨whole.2, last.isDigit, last.ne_nil, rfl⟩

theorem chars_eq (w : WrittenNumber) :
    w.chars = w.sign.chars ++
      (w.unscaled.mantissa ++ w.exponent?.elim [] fun x => x.mark :: x.text) := by
  obtain ⟨sign, whole?, last, exponent?⟩ := w
  cases whole? with
  | none => simp [chars, unscaled, LiteralParts.mantissa]
  | some whole => simp [chars, unscaled, LiteralParts.mantissa]

/-- The canonical value of the number. -/
def value (w : WrittenNumber) : Value := w.unscaled.value (decide (w.sign = .minus)) w.exponent

theorem canonical_value (w : WrittenNumber) : w.value.Canonical := canonical_atScale _ _

theorem toRat_value (w : WrittenNumber) : w.value.toRat = w.number := by
  have hdigits : w.unscaled.whole ++ w.unscaled.fraction = w.digits := by
    obtain ⟨sign, _ | whole, last, exponent?⟩ := w
    · exact List.append_nil _
    · rfl
  have hplaces : w.unscaled.fraction.length = w.places := by
    obtain ⟨sign, _ | whole, last, exponent?⟩ := w
    · rfl
    · rfl
  rw [value, LiteralParts.value, hdigits, hplaces, toRat_atScale, neg_sub, number,
    WrittenSign.apply]
  simp only [decide_eq_true_eq]

theorem cutSign_chars (w : WrittenNumber) : cutSign w.chars = (decide (w.sign = .minus),
    w.unscaled.mantissa ++ w.exponent?.elim [] fun x => x.mark :: x.text) := by
  obtain ⟨c, rest, hc⟩ := List.exists_cons_of_ne_nil w.wellFormed_unscaled.mantissa_ne_nil
  have hstart := w.wellFormed_unscaled.mem_mantissa (hc ▸ List.mem_cons_self)
  rw [chars_eq]
  refine w.sign.cutSign_append ?_
  rw [hc]
  exact cutSign_cons hstart

theorem cutAt_mark (w : WrittenNumber) :
    cutAt isExponentMark (w.unscaled.mantissa ++ w.exponent?.elim [] fun x => x.mark :: x.text) =
      (w.unscaled.mantissa, w.exponent?.map WrittenExponent.text) := by
  have hmantissa : ∀ c ∈ w.unscaled.mantissa, isExponentMark c = false := by
    intro c hc
    rcases w.wellFormed_unscaled.mem_mantissa hc with hc | rfl
    · exact not_isExponentMark_of_isDigit hc
    · rfl
  cases w.exponent? with
  | none =>
    rw [Option.elim_none, List.append_nil, cutAt_of_forall hmantissa]
    rfl
  | some x => exact cutAt_append_cons hmantissa x.isMark

/-- What can be written is read unless its exponent is too large. -/
theorem literal?_chars (w : WrittenNumber) :
    ∃ cause, literal? w.chars =
      if w.exponent.natAbs ≤ literalExponentLimit then .ok w.value else .error cause := by
  have hlast : w.unscaled.fraction?.getD w.unscaled.whole = w.last.chars := by
    obtain ⟨sign, _ | whole, last, exponent?⟩ := w
    · rfl
    · rfl
  have hgood : ¬ (w.last.chars.isEmpty || !allDigits w.last.chars ||
      !allDigits w.unscaled.whole) = true := by
    simp [w.last.ne_nil, allDigits_iff.2 w.last.isDigit,
      allDigits_iff.2 w.wellFormed_unscaled.whole_digits]
  rw [literal?_eq_of_cut w.cutSign_chars w.cutAt_mark w.wellFormed_unscaled.cutAt_mantissa, hlast,
    if_neg hgood, value, exponent]
  cases w.exponent? with
  | none => exact ⟨.invalidNumber, rfl⟩
  | some x =>
    obtain ⟨cause, hread⟩ := x.readExponent_text
    refine ⟨cause, ?_⟩
    rw [Option.map_some, Option.elim_some, Option.elim_some, hread]
    split_ifs
    · rfl
    · rfl

/-- What is read can be written. -/
theorem exists_chars {cs : List Char} {v : Value} (h : literal? cs = .ok v) :
    ∃ w : WrittenNumber, w.chars = cs := by
  obtain ⟨⟨whole, fraction?, exponent?⟩, e, hbody, hp, -⟩ := literal?_eq_ok_iff.1 h
  obtain ⟨sign, hsign⟩ := WrittenSign.exists_chars_append cs
  obtain ⟨x?, hx⟩ : ∃ x? : Option WrittenExponent,
      (x?.elim [] fun x => x.mark :: x.text) = exponent?.elim [] fun x => x.1 :: x.2 := by
    cases exponent? with
    | none => exact ⟨none, rfl⟩
    | some exponent =>
      obtain ⟨hmark, hread⟩ := hp.exponent
      obtain ⟨x, hx, htext⟩ := WrittenExponent.exists_text hmark hread
      exact ⟨some x, by rw [Option.elim_some, hx, htext]; rfl⟩
  have hchars : LiteralParts.chars ⟨whole, fraction?, exponent?⟩ =
      LiteralParts.mantissa ⟨whole, fraction?, none⟩ ++ x?.elim [] fun x => x.mark :: x.text := by
    rw [hx]
    cases exponent? <;> rfl
  rw [hbody, hchars] at hsign
  cases fraction? with
  | none =>
    refine ⟨⟨sign, none, ⟨whole, hp.last_ne_nil, hp.whole_digits⟩, x?⟩, ?_⟩
    rw [chars_eq]
    exact hsign
  | some fraction =>
    refine ⟨⟨sign, some ⟨whole, hp.whole_digits⟩,
      ⟨fraction, hp.last_ne_nil, hp.fraction_digits⟩, x?⟩, ?_⟩
    rw [chars_eq]
    exact hsign

end WrittenNumber

/-! ## Literals as entries -/

namespace Value

/-- A text that is a literal is an entry with the value of the literal. -/
theorem evaluate_of_readLiteral {p : Parser} {entry : String} {v : Value}
    (h : readLiteral entry.toList = .ok v) (hlength : entry.length ≤ p.options.limits.length)
    (hheight : 1 ≤ p.options.limits.height) : p.evaluate entry = .ok v := by
  have hparse : p.parse entry = .ok (.literal v) := by
    unfold Parser.parse
    simp only [String.length_toList, if_neg (Nat.not_lt.2 hlength)]
    exact Grammar.parseLevel_of_level (line_of_signed (signed_of_readLiteral h)) hheight
  rw [Parser.evaluate_of_parse hparse, Expr.denote]

/-- The fault of a text that is not read is about the whole text. -/
theorem readLiteral_of_forall_ne {s : String} (h : ∀ v, literal? s.toList ≠ .ok v) :
    ∃ cause, readLiteral s.toList = .error (.parse cause s) := by
  rw [readLiteral]
  cases hread : literal? s.toList with
  | ok v => exact absurd hread (h v)
  | error cause =>
    refine ⟨cause, ?_⟩
    rw [Except.mapError, Fault.ofFragment, String.ofList_toList]

end Value
end Reckoner

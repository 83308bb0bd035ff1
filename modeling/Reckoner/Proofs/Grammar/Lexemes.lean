import Mathlib
import Reckoner.Proofs.Grammar.Basic
import Reckoner.Proofs.Text.Literal
import Reckoner.Token.Scanner

/-!
# Where lexemes end

The scanner reads an atom up to a delimiter, and lets a sign through after the mark of an
exponent.  Names and literals are made of characters that do not delimit
(`not_isDelimiter_of_isNamePart`), and the sign in a literal always stands before a digit, so
that the scanner takes all of a name (`atomLength_run`) and all of a literal
(`atomLength_literal`) if a delimiter or the end comes after it.  Whatever atom it takes, it takes
again if a delimiter that is no sign, or the end, comes after it (`exists_atom`).  A line begins
and ends with characters that are not blank (`Signed.solid`, `Chain.solid`), which is what makes
it survive the trimming of arguments (`Line.trim`, `Line.of_trim`).
-/

namespace Reckoner
namespace Grammar

/-! ## Kinds of characters -/

/-- A statement about ASCII characters can be checked code by code. -/
theorem forall_ascii {p : Char → Bool} (h : ∀ n < 128, p (Char.ofNat n) = true) {c : Char}
    (hc : c.toNat < 128) : p c = true := by
  have := h c.toNat hc
  rwa [Char.ofNat_toNat] at this

theorem toNat_lt_of_isNamePart {c : Char} (h : Registry.isNamePart c = true) :
    c.toNat < 128 := by
  have hle {d : Char} (h : c ≤ d) : c.toNat ≤ d.toNat := UInt32.le_iff_toNat_le.1 h
  simp only [Registry.isNamePart, Registry.isNameStart, Char.isAlpha, Char.isUpper,
    Char.isLower, Char.isDigit, Bool.or_eq_true, Bool.and_eq_true, decide_eq_true_eq,
    beq_iff_eq] at h
  rcases h with (((h | h) | h) | h)
  · exact (hle (d := 'Z') h.2).trans_lt (by decide)
  · exact (hle (d := 'z') h.2).trans_lt (by decide)
  · rw [h]
    decide
  · exact (hle (d := '9') h.2).trans_lt (by decide)

theorem not_isDelimiter_of_isNamePart {c : Char} (h : Registry.isNamePart c = true) :
    Scanner.isDelimiter c = false := by
  have := forall_ascii (p := fun c => !Registry.isNamePart c || !Scanner.isDelimiter c)
    (by decide) (toNat_lt_of_isNamePart h)
  simpa [h] using this

theorem isNamePart_of_isNameStart {c : Char} (h : Registry.isNameStart c = true) :
    Registry.isNamePart c = true := by
  rw [Registry.isNamePart, h, Bool.true_or]

theorem isNamePart_of_isDigit {c : Char} (h : c.isDigit = true) :
    Registry.isNamePart c = true := by
  rw [Registry.isNamePart, h, Bool.or_true]

theorem not_isDelimiter_of_isDigit {c : Char} (h : c.isDigit = true) :
    Scanner.isDelimiter c = false :=
  not_isDelimiter_of_isNamePart (isNamePart_of_isDigit h)

theorem not_startsNumber_of_isNameStart {c : Char} (h : Registry.isNameStart c = true) :
    Scanner.startsNumber c = false := by
  have := forall_ascii
    (p := fun c => !Registry.isNameStart c || !Scanner.startsNumber c) (by decide)
    (toNat_lt_of_isNamePart (isNamePart_of_isNameStart h))
  simpa [h] using this

theorem isNamePart_of_isExponentMark {c : Char} (h : Value.isExponentMark c = true) :
    Registry.isNamePart c = true := by
  rw [Value.isExponentMark, Bool.or_eq_true, beq_iff_eq, beq_iff_eq] at h
  rcases h with rfl | rfl <;> decide

theorem not_isDelimiter_of_startsNumber {c : Char} (h : Scanner.startsNumber c = true) :
    Scanner.isDelimiter c = false := by
  rw [Scanner.startsNumber, Bool.or_eq_true, beq_iff_eq] at h
  rcases h with h | rfl
  · exact not_isDelimiter_of_isNamePart (isNamePart_of_isDigit h)
  · decide

theorem not_isExponentMark_of_startsNumber {c : Char} (h : Scanner.startsNumber c = true) :
    Value.isExponentMark c = false := by
  rw [Scanner.startsNumber, Bool.or_eq_true, beq_iff_eq] at h
  rcases h with h | rfl
  · exact Value.not_isExponentMark_of_isDigit h
  · decide

theorem startsNumber_iff {c : Char} :
    Scanner.startsNumber c = true ↔ c.isDigit = true ∨ c = '.' := by
  rw [Scanner.startsNumber, Bool.or_eq_true, beq_iff_eq]

/-- What a delimiter may be, spelled out. -/
theorem not_isDelimiter_iff {c : Char} : Scanner.isDelimiter c = false ↔
    Text.isBlank c = false ∧ Operator.ofSymbol? c = none ∧ c ≠ '(' ∧ c ≠ ')' ∧ c ≠ ',' := by
  simp only [Scanner.isDelimiter, Bool.or_eq_false_iff, Option.isSome_eq_false_iff,
    Option.isNone_iff_eq_none, beq_eq_false_iff_ne, and_assoc]

theorem symbol_of_ofSymbol? {c : Char} {op : Operator} (h : Operator.ofSymbol? c = some op) :
    c = op.symbol := by
  unfold Operator.ofSymbol? at h
  split at h <;> first | (cases h; rfl) | cases h

/-- Neither a blank nor a parenthesis nor a comma. -/
def Inert (c : Char) : Prop := Text.isBlank c = false ∧ c ≠ '(' ∧ c ≠ ')' ∧ c ≠ ','

theorem inert_of_not_isDelimiter {c : Char} (h : Scanner.isDelimiter c = false) : Inert c :=
  ⟨(not_isDelimiter_iff.1 h).1, (not_isDelimiter_iff.1 h).2.2⟩

theorem inert_symbol (op : Operator) : Inert op.symbol := by
  cases op <;> exact ⟨by decide, by decide, by decide, by decide⟩

/-! ## What follows an operand -/

/-- After blanks comes an operator or the end of the text. -/
def Ends (after : List Char) : Prop :=
  ∀ c ∈ (after.dropWhile Text.isBlank).head?, (Operator.ofSymbol? c).isSome = true

theorem ends_of_blank {b : List Char} (hb : Blank b) : Ends b := by
  intro c hc
  rw [List.dropWhile_eq_nil_iff.2 hb] at hc
  cases hc

theorem ends_symbol {b rest : List Char} (hb : Blank b) (op : Operator) :
    Ends (b ++ op.symbol :: rest) := by
  intro c hc
  rw [List.dropWhile_append_of_pos hb,
    List.dropWhile_cons_of_neg (by rw [(inert_symbol op).1]; decide)] at hc
  cases hc
  rw [Operator.ofSymbol?_symbol]
  rfl

/-- An atom ends where a delimiter or the end of the text follows. -/
def Stops (after : List Char) : Prop := ∀ c ∈ after.head?, Scanner.isDelimiter c = true

theorem Ends.stops {after : List Char} (h : Ends after) : Stops after := by
  intro c hc
  cases after with
  | nil => cases hc
  | cons d after =>
    obtain rfl : d = c := Option.some.inj hc
    cases hblank : Text.isBlank d with
    | true => simp [Scanner.isDelimiter, hblank]
    | false =>
      have hop := h d (by rw [List.dropWhile_cons_of_neg (by simp [hblank])]; rfl)
      simp [Scanner.isDelimiter, hop]

theorem stops_opening {b rest : List Char} (hb : Blank b) : Stops (b ++ '(' :: rest) := by
  intro c hc
  cases b with
  | nil =>
    cases hc
    decide
  | cons d b =>
    obtain rfl : d = c := Option.some.inj hc
    simp [Scanner.isDelimiter, hb d (by simp)]

/-- Any atom ends here, even a number of which the last character marks an exponent. -/
def Cuts (after : List Char) : Prop :=
  ∀ c ∈ after.head?, Scanner.isDelimiter c = true ∧ Operator.ofSymbol? c = none

theorem cuts_nil : Cuts [] := by
  intro c hc
  cases hc

theorem cuts_blank (rest : List Char) : Cuts (' ' :: rest) := by
  intro c hc
  cases hc
  decide

theorem Ends.head?_ne {after : List Char} (h : Ends after) :
    (after.dropWhile Text.isBlank).head? ≠ some '(' := by
  intro hc
  have hop := h '(' hc
  revert hop
  decide

/-! ## Atoms -/

theorem atomLength_append {numeric : Bool} {previous : Char} {n : Nat} {cs rest : List Char}
    (h : ∀ c ∈ cs, Scanner.isDelimiter c = false) :
    Scanner.atomLength numeric previous n (cs ++ rest) =
      Scanner.atomLength numeric (cs.getLastD previous) (n + cs.length) rest := by
  induction cs generalizing previous n with
  | nil => rfl
  | cons c cs ih =>
    have hc : Scanner.continuesAtom numeric previous c (cs ++ rest) = true := by
      rw [Scanner.continuesAtom, h c (by simp)]
      rfl
    rw [List.cons_append, Scanner.atomLength, if_pos hc,
      ih fun d hd => h d (by simp [hd]), List.length_cons, List.getLastD_cons,
      Nat.add_right_comm, Nat.add_assoc]

theorem atomLength_stop {numeric : Bool} {previous : Char} {n : Nat} {after : List Char}
    (hprevious : (numeric && Value.isExponentMark previous) = false) (h : Stops after) :
    Scanner.atomLength numeric previous n after = n := by
  cases after with
  | nil => rfl
  | cons c after =>
    have hc : Scanner.continuesAtom numeric previous c after = false := by
      rw [Scanner.continuesAtom, h c rfl, hprevious]
      rfl
    rw [Scanner.atomLength, hc, if_neg Bool.false_ne_true]

/-- A run of characters that do not delimit is taken whole; it is not a number or does not
end at the mark of an exponent. -/
theorem atomLength_run {numeric : Bool} {previous : Char} {n : Nat} {cs after : List Char}
    (h : ∀ c ∈ cs, Scanner.isDelimiter c = false)
    (hlast : (numeric && Value.isExponentMark (cs.getLastD previous)) = false)
    (hafter : Stops after) :
    Scanner.atomLength numeric previous n (cs ++ after) = n + cs.length := by
  rw [atomLength_append h, atomLength_stop hlast hafter]

theorem not_continuesAtom_of_cuts {numeric : Bool} {previous c : Char} {rest : List Char}
    (h : Cuts (c :: rest)) : Scanner.continuesAtom numeric previous c rest = false := by
  obtain ⟨hdelimiter, hsymbol⟩ := h c rfl
  have hplus : c ≠ '+' := by
    rintro rfl
    cases hsymbol
  have hminus : c ≠ '-' := by
    rintro rfl
    cases hsymbol
  simp [Scanner.continuesAtom, hdelimiter, hplus, hminus]

theorem atomLength_of_cuts {numeric : Bool} {previous : Char} {n : Nat} {after : List Char}
    (h : Cuts after) : Scanner.atomLength numeric previous n after = n := by
  cases after with
  | nil => rfl
  | cons c after => rw [Scanner.atomLength, not_continuesAtom_of_cuts h, if_neg (by simp)]

/-- The characters that an atom takes, it takes whatever cuts it off.  A sign among them is the sign
of an exponent, and the digit after it is taken as well. -/
theorem exists_atom (numeric : Bool) (previous : Char) (n : Nat) (cs : List Char) :
    ∃ text after, cs = text ++ after ∧
      Scanner.atomLength numeric previous n cs = n + text.length ∧
      (∀ d ∈ cs.head?, Scanner.isDelimiter d = false → text.head? = some d) ∧
      (numeric = false → ∀ d ∈ text, Scanner.isDelimiter d = false) ∧
      ∀ n after', Cuts after' →
        Scanner.atomLength numeric previous n (text ++ after') = n + text.length := by
  induction cs generalizing previous n with
  | nil => exact ⟨[], [], rfl, rfl, by simp, by simp, fun n _ h => atomLength_of_cuts h⟩
  | cons c cs ih =>
    cases hc : Scanner.continuesAtom numeric previous c cs with
    | false =>
      refine ⟨[], c :: cs, rfl, ?_, fun d hd hplain => ?_, by simp,
        fun n _ h => atomLength_of_cuts h⟩
      · rw [Scanner.atomLength, hc, if_neg Bool.false_ne_true]
        rfl
      · obtain rfl : c = d := Option.some.inj hd
        rw [Scanner.continuesAtom, hplain] at hc
        cases hc
    | true =>
      obtain ⟨text, after, rfl, hlength, hhead, hplain, hagain⟩ := ih c (n + 1)
      refine ⟨c :: text, after, rfl, ?_, fun d hd _ => hd, fun hnumeric => ?_,
        fun n after' hafter => ?_⟩
      · rw [Scanner.atomLength, hc, if_pos rfl, hlength, List.length_cons]
        omega
      · refine List.forall_mem_cons.2 ⟨?_, hplain hnumeric⟩
        simpa [Scanner.continuesAtom, hnumeric] using hc
      · have hc' : Scanner.continuesAtom numeric previous c (text ++ after') = true := by
          rw [Scanner.continuesAtom, Bool.or_eq_true] at hc ⊢
          refine hc.imp_right fun hsign => ?_
          rw [Bool.and_eq_true, Option.any_eq_true] at hsign ⊢
          obtain ⟨hmark, d, hd, hdigit⟩ := hsign
          have htext := hhead d hd (not_isDelimiter_of_isDigit hdigit)
          exact ⟨hmark, d, by rw [List.head?_append, htext]; rfl, hdigit⟩
        rw [List.cons_append, Scanner.atomLength, hc', if_pos rfl, hagain _ _ hafter,
          List.length_cons]
        omega

theorem getLastD_mem {α : Type} {a : α} {xs : List α} (h : xs ≠ []) : xs.getLastD a ∈ xs := by
  rw [List.getLastD_eq_getLast?, List.getLast?_eq_some_getLast h]
  exact List.getLast_mem h

theorem atomLength_digits {previous : Char} {n : Nat} {ds after : List Char}
    (hne : ds ≠ []) (h : ∀ c ∈ ds, c.isDigit = true) (hafter : Stops after) :
    Scanner.atomLength true previous n (ds ++ after) = n + ds.length :=
  atomLength_run (fun c hc => not_isDelimiter_of_isDigit (h c hc))
    (Value.not_isExponentMark_of_isDigit (h _ (getLastD_mem hne))) hafter

theorem eq_of_cutSign {cs rest : List Char} {negative : Bool}
    (h : Value.cutSign cs = (negative, rest)) :
    cs = rest ∨ cs = '-' :: rest ∨ cs = '+' :: rest := by
  unfold Value.cutSign at h
  split at h <;> cases h <;> simp

theorem continuesAtom_sign {mark sign : Char} {ds after : List Char}
    (hmark : Value.isExponentMark mark = true) (hsign : sign = '-' ∨ sign = '+')
    (hne : ds ≠ []) (hdigits : ∀ c ∈ ds, c.isDigit = true) :
    Scanner.continuesAtom true mark sign (ds ++ after) = true := by
  obtain ⟨d, ds, rfl⟩ := List.exists_cons_of_ne_nil hne
  have hd := hdigits d (by simp)
  rw [Scanner.continuesAtom, hmark]
  rcases hsign with rfl | rfl <;> simp [hd]

/-- The sign of an exponent is let through. -/
theorem atomLength_power {mark : Char} {n : Nat} {power after : List Char} {e : Int}
    (hmark : Value.isExponentMark mark = true) (hpower : Value.readExponent power = .ok e)
    (hafter : Stops after) :
    Scanner.atomLength true mark n (power ++ after) = n + power.length := by
  obtain ⟨hne, hdigits⟩ := Value.digits_of_readExponent hpower
  rcases hcut : Value.cutSign power with ⟨negative, ds⟩
  rw [hcut] at hne hdigits
  have hsigned (sign : Char) (hsign : sign = '-' ∨ sign = '+') :
      Scanner.atomLength true mark n (sign :: ds ++ after) = n + (sign :: ds).length := by
    rw [List.cons_append, Scanner.atomLength,
      if_pos (continuesAtom_sign hmark hsign hne hdigits), atomLength_digits hne hdigits hafter,
      List.length_cons, Nat.add_right_comm, Nat.add_assoc]
  rcases eq_of_cutSign hcut with h | h | h
  · rw [h]
    exact atomLength_digits hne hdigits hafter
  · rw [h]
    exact hsigned '-' (.inl rfl)
  · rw [h]
    exact hsigned '+' (.inr rfl)

/-- The atom that begins with a literal is the whole literal. -/
theorem atomLength_literal {p : Value.LiteralParts} {e : Int} (hp : p.WellFormed e) {c : Char}
    {text after : List Char} (hchars : p.chars = c :: text) (hafter : Stops after) :
    Scanner.atomLength true c 0 (text ++ after) = text.length := by
  obtain ⟨d, digits, hmantissa⟩ := List.exists_cons_of_ne_nil hp.mantissa_ne_nil
  have hmember : ∀ x ∈ d :: digits, Scanner.startsNumber x = true := by
    rw [← hmantissa]
    exact fun x hx => startsNumber_iff.2 (hp.mem_mantissa hx)
  have hplain : ∀ x ∈ digits, Scanner.isDelimiter x = false := fun x hx =>
    not_isDelimiter_of_startsNumber (hmember x (by simp [hx]))
  have hexponent := hp.exponent
  rw [Value.LiteralParts.chars, hmantissa] at hchars
  cases he : p.exponent? with
  | none =>
    rw [he] at hchars
    simp only [List.append_nil, List.cons.injEq] at hchars
    obtain ⟨rfl, rfl⟩ := hchars
    have hlast : Value.isExponentMark (digits.getLastD d) = false := by
      refine not_isExponentMark_of_startsNumber (hmember _ ?_)
      rw [← List.getLastD_cons (a := d)]
      exact getLastD_mem (List.cons_ne_nil _ _)
    have hrun : Scanner.atomLength true d 0 (digits ++ after) = 0 + digits.length :=
      atomLength_run hplain hlast hafter
    rw [hrun, Nat.zero_add]
  | some exponent =>
    obtain ⟨mark, power⟩ := exponent
    rw [he] at hchars hexponent
    simp only [List.cons_append, List.cons.injEq] at hchars
    obtain ⟨rfl, rfl⟩ := hchars
    have hplain' : ∀ x ∈ digits ++ [mark], Scanner.isDelimiter x = false := by
      intro x hx
      rcases List.mem_append.1 hx with hx | hx
      · exact hplain x hx
      · rw [List.mem_singleton.1 hx]
        exact not_isDelimiter_of_isNamePart (isNamePart_of_isExponentMark hexponent.1)
    -- the mark itself does not delimit, so the run of plain characters goes up to it
    have hsplit : digits ++ mark :: power ++ after = (digits ++ [mark]) ++ (power ++ after) := by
      simp
    rw [hsplit, atomLength_append hplain', List.getLastD_concat,
      atomLength_power hexponent.1 hexponent.2 hafter]
    simp only [List.length_append, List.length_cons, List.length_nil]
    omega

theorem inert_of_mem_literal {p : Value.LiteralParts} {e : Int} (hp : p.WellFormed e) :
    ∀ c ∈ p.chars, Inert c := by
  intro c hc
  have hexponent := hp.exponent
  rcases List.mem_append.1 hc with hc | hc
  · exact inert_of_not_isDelimiter
      (not_isDelimiter_of_startsNumber (startsNumber_iff.2 (hp.mem_mantissa hc)))
  · cases he : p.exponent? with
    | none =>
      rw [he] at hc
      cases hc
    | some exponent =>
      obtain ⟨mark, power⟩ := exponent
      rw [he] at hc hexponent
      obtain ⟨-, hdigits⟩ := Value.digits_of_readExponent hexponent.2
      rcases hcut : Value.cutSign power with ⟨negative, ds⟩
      rw [hcut] at hdigits
      have hds : ∀ c ∈ ds, Inert c := fun c hc =>
        inert_of_not_isDelimiter (not_isDelimiter_of_isDigit (hdigits c hc))
      rcases List.mem_cons.1 hc with rfl | hc
      · exact inert_of_not_isDelimiter
          (not_isDelimiter_of_isNamePart (isNamePart_of_isExponentMark hexponent.1))
      · rcases eq_of_cutSign hcut with h | h | h <;> rw [h] at hc
        · exact hds c hc
        · rcases List.mem_cons.1 hc with rfl | hc
          · exact inert_symbol .sub
          · exact hds c hc
        · rcases List.mem_cons.1 hc with rfl | hc
          · exact inert_symbol .add
          · exact hds c hc

/-! ## Names -/

theorem exists_of_isName {name : List Char} (h : Registry.isName name = true) :
    ∃ c rest, name = c :: rest ∧ Registry.isNameStart c = true ∧
      ∀ d ∈ name, Scanner.isDelimiter d = false := by
  cases name with
  | nil => cases h
  | cons c rest =>
    rw [Registry.isName, Bool.and_eq_true, List.all_eq_true] at h
    refine ⟨c, rest, rfl, h.1, fun d hd => not_isDelimiter_of_isNamePart ?_⟩
    rcases List.mem_cons.1 hd with rfl | hd
    · exact isNamePart_of_isNameStart h.1
    · exact h.2 d hd

/-! ## Outer blanks -/

/-- A text that neither begins nor ends with a blank, and is not empty. -/
structure Solid (text : List Char) : Prop where
  first : ∃ c rest, text = c :: rest ∧ Text.isBlank c = false
  last : ∃ rest c, text = rest ++ [c] ∧ Text.isBlank c = false

theorem solid_of_inert {text : List Char} (hne : text ≠ []) (h : ∀ c ∈ text, Inert c) :
    Solid text := by
  constructor
  · obtain ⟨c, rest, rfl⟩ := List.exists_cons_of_ne_nil hne
    exact ⟨c, rest, rfl, (h c (by simp)).1⟩
  · obtain ⟨rest, c, rfl⟩ := (List.eq_nil_or_concat text).resolve_left hne
    rw [List.concat_eq_append] at h ⊢
    exact ⟨rest, c, rfl, (h c (by simp)).1⟩

theorem Solid.append {s t : List Char} (hs : Solid s) (ht : Solid t) (m : List Char) :
    Solid (s ++ (m ++ t)) := by
  obtain ⟨c, s', rfl, hc⟩ := hs.first
  obtain ⟨t', d, rfl, hd⟩ := ht.last
  exact ⟨⟨c, s' ++ (m ++ (t' ++ [d])), rfl, hc⟩, ⟨c :: s' ++ (m ++ t'), d, by simp, hd⟩⟩

theorem trim_append {b text b' : List Char} (hb : Blank b) (h : Solid text) (hb' : Blank b') :
    Text.trim (b ++ (text ++ b')) = text := by
  obtain ⟨c, rest, hfirst, hc⟩ := h.first
  obtain ⟨rest', d, hlast, hd⟩ := h.last
  have hstart : Text.trimStart (b ++ (text ++ b')) = text ++ b' := by
    rw [Text.trimStart, List.dropWhile_append_of_pos hb, hfirst, List.cons_append,
      List.dropWhile_cons_of_neg (by simp [hc])]
  have hend : Text.trimStart (text ++ b').reverse = text.reverse := by
    rw [Text.trimStart, List.reverse_append,
      List.dropWhile_append_of_pos (fun c hc => hb' c (List.mem_reverse.1 hc)), hlast,
      List.reverse_append, List.reverse_singleton, List.singleton_append,
      List.dropWhile_cons_of_neg (by simp [hd])]
  rw [Text.trim, hstart, Text.trimEnd, hend, List.reverse_reverse]

theorem Solid.trim_eq {text : List Char} (h : Solid text) : Text.trim text = text := by
  simpa using trim_append blank_nil h blank_nil

/-- Trimming takes blanks off the two ends and nothing else. -/
theorem exists_trim (text : List Char) :
    ∃ b b', Blank b ∧ Blank b' ∧ text = b ++ (Text.trim text ++ b') := by
  refine ⟨text.takeWhile Text.isBlank,
    ((Text.trimStart text).reverse.takeWhile Text.isBlank).reverse,
    fun c hc => List.mem_takeWhile_imp hc,
    fun c hc => List.mem_takeWhile_imp (List.mem_reverse.1 hc), ?_⟩
  have hend := congrArg List.reverse
    (List.takeWhile_append_dropWhile (p := Text.isBlank) (l := (Text.trimStart text).reverse))
  rw [List.reverse_append, List.reverse_reverse] at hend
  rw [Text.trim, Text.trimEnd, Text.trimStart, hend]
  exact List.takeWhile_append_dropWhile.symm

theorem trim_eq_nil_iff {text : List Char} : Text.trim text = [] ↔ Blank text := by
  constructor
  · intro h
    obtain ⟨b, b', hb, hb', heq⟩ := exists_trim text
    rw [h] at heq
    intro c hc
    rw [heq] at hc
    exact (List.mem_append.1 hc).elim (hb c) (hb' c)
  · intro h
    rw [Text.trim, Text.trimStart, List.dropWhile_eq_nil_iff.2 h]
    rfl

/-- What trimming leaves is solid, if it leaves anything. -/
theorem solid_trim {text : List Char} (h : Text.trim text ≠ []) : Solid (Text.trim text) := by
  constructor
  · obtain ⟨c, rest, hc⟩ := List.exists_cons_of_ne_nil h
    obtain ⟨b', hb'⟩ : Text.trim text <+: Text.trimStart text :=
      List.rdropWhile_prefix (p := Text.isBlank) _
    rw [hc, List.cons_append] at hb'
    have hfirst := List.head?_dropWhile_not Text.isBlank text
    rw [← Text.trimStart, ← hb'] at hfirst
    exact ⟨c, rest, hc, by simpa using hfirst⟩
  · have hlast : ¬ Text.isBlank ((Text.trim text).getLast h) = true :=
      List.rdropWhile_last_not Text.isBlank (Text.trimStart text) h
    exact ⟨_, _, (List.dropLast_append_getLast h).symm, by simpa using hlast⟩

/-! ## The ends of lines -/

theorem exists_parts {text : List Char} {v : Value}
    (hsign : Value.cutSign text = (false, text)) (h : Value.readLiteral text = .ok v) :
    ∃ (p : Value.LiteralParts) (e : Int), text = p.chars ∧ p.WellFormed e := by
  rw [Value.readLiteral_eq_ok_iff, Value.literal?_eq_ok_iff, hsign] at h
  obtain ⟨p, e, htext, hp, -⟩ := h
  exact ⟨p, e, htext, hp⟩

theorem inert_of_readLiteral {text : List Char} {v : Value}
    (hsign : Value.cutSign text = (false, text)) (h : Value.readLiteral text = .ok v) :
    text ≠ [] ∧ ∀ c ∈ text, Inert c := by
  obtain ⟨p, e, rfl, hp⟩ := exists_parts hsign h
  obtain ⟨c, rest, hc, -⟩ := hp.exists_cons
  refine ⟨?_, inert_of_mem_literal hp⟩
  rw [hc]
  exact List.cons_ne_nil c rest

theorem inert_of_isName {name : List Char} (h : Registry.isName name = true) :
    name ≠ [] ∧ ∀ c ∈ name, Inert c := by
  obtain ⟨c, rest, rfl, -, hplain⟩ := exists_of_isName h
  refine ⟨List.cons_ne_nil c rest, ?_⟩
  intro d hd
  exact inert_of_not_isDelimiter (hplain d hd)

section Line

variable {r : Registry} {o : Options} {Inside : List Char → Expr → Prop} {text : List Char}
  {e : Expr}

theorem Primary.solid (h : Primary r o Inside text e) : Solid text := by
  cases h with
  | number hsign h =>
    obtain ⟨hne, hinert⟩ := inert_of_readLiteral hsign h
    exact solid_of_inert hne hinert
  | constant hname h =>
    obtain ⟨hne, hinert⟩ := inert_of_isName hname
    exact solid_of_inert hne hinert
  | group h => exact ⟨⟨'(', _, rfl, by decide⟩, ⟨'(' :: _, ')', rfl, by decide⟩⟩
  | @call name b text _ _ hname h hb hargs harity =>
    obtain ⟨c, rest, rfl, -, hplain⟩ := exists_of_isName hname
    have hc := inert_of_not_isDelimiter (hplain c (by simp))
    exact ⟨⟨c, _, rfl, hc.1⟩, ⟨c :: rest ++ (b ++ '(' :: text), ')', by simp, by decide⟩⟩

theorem Signed.solid (h : Signed r o Inside text e) : Solid text := by
  cases h with
  | plain h => exact h.solid
  | plus hb h =>
    exact Solid.append (s := ['+']) ⟨⟨'+', [], rfl, by decide⟩, ⟨[], '+', rfl, by decide⟩⟩
      h.solid _
  | minus hb h =>
    exact Solid.append (s := ['-']) ⟨⟨'-', [], rfl, by decide⟩, ⟨[], '-', rfl, by decide⟩⟩
      h.solid _

theorem Chain.solid {rest : List Char} {xs : List (Operator × Expr)}
    (hrest : Chain r o Inside rest xs) (htext : Solid text) : Solid (text ++ rest) := by
  induction hrest generalizing text with
  | nil => rwa [List.append_nil]
  | @cons b b' operand rest op _ _ hb hb' h hrest ih =>
    have hsplit : text ++ (b ++ op.symbol :: (b' ++ (operand ++ rest))) =
        text ++ ((b ++ op.symbol :: b') ++ (operand ++ rest)) := by
      simp
    rw [hsplit]
    exact htext.append (ih h.solid) _

theorem Line.cast {text' : List Char} (h : Line r o Inside text e) (heq : text = text') :
    Line r o Inside text' e := heq ▸ h

/-- A line is the same line without its outer blanks. -/
theorem Line.trim (h : Line r o Inside text e) :
    Solid (Text.trim text) ∧ Line r o Inside (Text.trim text) e := by
  obtain ⟨hb, h, hrest, hb'⟩ := h
  have hsolid := hrest.solid h.solid
  have htrim := trim_append hb hsolid hb'
  rw [List.append_assoc] at htrim
  rw [htrim]
  refine ⟨hsolid, (Line.intro blank_nil h hrest blank_nil).cast ?_⟩
  rw [List.nil_append, List.append_nil]

theorem Line.of_trim (h : Line r o Inside (Text.trim text) e) : Line r o Inside text e := by
  obtain ⟨b, b', hb, hb', htext⟩ := exists_trim text
  generalize Text.trim text = core at h htext
  subst htext
  obtain ⟨hc, h, hrest, hc'⟩ := h
  refine (Line.intro (hb.append hc) h hrest (hc'.append hb')).cast ?_
  simp only [List.append_assoc]

end Line

end Grammar
end Reckoner

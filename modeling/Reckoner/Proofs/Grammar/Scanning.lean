import Mathlib
import Reckoner.Proofs.Grammar.Parentheses

/-!
# The scanner follows the grammar

The scanner is taken apart lexeme by lexeme (`lexeme_cases`, `operand_cases`), for one
reading of operands, `resolve`.  It is assumed to read the text of a primary as that
primary; then

* a text whose tokens resolve is a line (`line_of_scan`);
* the tokens of a line are scanned and resolve (`exists_scan_of_line`).

What has been passed only matters to the text of faults, so it is left open everywhere.
-/

namespace Reckoner
namespace Grammar

open Scanner

/-! ## One lexeme -/

theorem scanFrom_cons (expecting : Expecting) (behind : List Char) (c : Char)
    (rest : List Char) :
    scanFrom expecting behind (c :: rest) = (do
      let item ← lexeme expecting behind c rest
      let tokens ← scanFrom item.next ((rest.take item.extra).reverse ++ c :: behind)
        (rest.drop item.extra)
      return item.token.toList ++ tokens) := by
  rw [scanFrom.eq_def]

theorem scanFrom_operator_nil (behind : List Char) : scanFrom .operator behind [] = .ok [] := by
  rw [scanFrom.eq_def]

theorem scanFrom_operand_nil (sign : Option Bool) (behind : List Char) :
    scanFrom (.operand sign) behind [] = .error (endFault behind.reverse) := by
  rw [scanFrom.eq_def]

theorem exists_of_scanFrom_cons {expecting : Expecting} {behind : List Char} {c : Char}
    {rest : List Char} {tokens : List Token}
    (h : scanFrom expecting behind (c :: rest) = .ok tokens) :
    ∃ item behind' tokens', lexeme expecting behind c rest = .ok item ∧
      scanFrom item.next behind' (rest.drop item.extra) = .ok tokens' ∧
      tokens = item.token.toList ++ tokens' := by
  rw [scanFrom_cons] at h
  obtain ⟨item, hitem, h⟩ := ok_of_bind_eq_ok h
  obtain ⟨tokens', htokens, h⟩ := ok_of_bind_eq_ok h
  cases h
  exact ⟨item, _, tokens', hitem, htokens, rfl⟩

/-- The text gives the tokens, whatever has been passed. -/
def Scans (expecting : Expecting) (text : List Char) (tokens : List Token) : Prop :=
  ∀ behind, scanFrom expecting behind text = .ok tokens

theorem Scans.cons {expecting : Expecting} {c : Char} {rest : List Char} {item : Lexeme}
    {tokens : List Token} (h : ∀ behind, lexeme expecting behind c rest = .ok item)
    (hrest : Scans item.next (rest.drop item.extra) tokens) :
    Scans expecting (c :: rest) (item.token.toList ++ tokens) := by
  intro behind
  rw [scanFrom_cons, h]
  show (scanFrom item.next _ _ >>= _) = _
  rw [hrest]
  rfl

/-- What a lexeme can be. -/
theorem lexeme_cases {expecting : Expecting} {behind : List Char} {c : Char}
    {rest : List Char} {item : Lexeme} (h : lexeme expecting behind c rest = .ok item) :
    (Text.isBlank c = true ∧ item = ⟨none, expecting, 0⟩) ∨
      (∃ op : Operator, c = op.symbol ∧ expecting = .operator ∧
        item = ⟨some (.operator op), .operand none, 0⟩) ∨
      (expecting = .operand none ∧ c = '+' ∧ item = ⟨none, .operand (some false), 0⟩) ∨
      (expecting = .operand none ∧ c = '-' ∧ item = ⟨none, .operand (some true), 0⟩) ∨
      (∃ sign, expecting = .operand sign ∧ (c = '(' ∨ isDelimiter c = false) ∧
        Scanner.operand (sign.getD false) c rest = .ok item) := by
  unfold lexeme at h
  split at h
  · rename_i hblank
    cases h
    exact .inl ⟨hblank, rfl⟩
  · rename_i hblank
    split at h
    · rename_i op hop
      cases h
      exact .inr (.inl ⟨op, symbol_of_ofSymbol? hop, rfl, rfl⟩)
    · rename_i hop
      cases h
      exact .inr (.inr (.inl ⟨rfl, symbol_of_ofSymbol? hop, rfl⟩))
    · rename_i hop
      cases h
      exact .inr (.inr (.inr (.inl ⟨rfl, symbol_of_ofSymbol? hop, rfl⟩)))
    · cases h
    · rename_i hop
      split at h
      · cases h
      rename_i hclosing
      split at h
      · cases h
      rename_i hcomma
      split at h
      · cases h
      · refine .inr (.inr (.inr (.inr ⟨_, rfl, or_iff_not_imp_left.2 fun hopen => ?_, h⟩)))
        exact not_isDelimiter_iff.2 ⟨by simpa using hblank, hop, hopen, hclosing, hcomma⟩

theorem extra_ofOperand (o : Operand) (n : Nat) : (Lexeme.ofOperand o n).extra = n := rfl

/-- What an operand can be: a group, a call or an atom. -/
theorem operand_cases {negative : Bool} {c : Char} {rest : List Char} {item : Lexeme}
    (h : Scanner.operand negative c rest = .ok item) :
    (∃ inside after, c = '(' ∧ rest = inside ++ ')' :: after ∧ Balanced true inside ∧
      item = .ofOperand (.group negative inside) (inside ++ [')']).length) ∨
    (∃ name b inside after, c ≠ '(' ∧ startsNumber c = false ∧
      rest = name ++ (b ++ ('(' :: inside ++ [')'])) ++ after ∧
      (∀ d ∈ name, isDelimiter d = false) ∧ Blank b ∧ Balanced true inside ∧
      item = .ofOperand (.call negative (c :: name) (Arguments.split inside))
        (name ++ (b ++ ('(' :: inside ++ [')']))).length) ∨
    (∃ text after, c ≠ '(' ∧ rest = text ++ after ∧
      atomLength (startsNumber c) c 0 (text ++ after) = text.length ∧
      (∀ after', Cuts after' →
        atomLength (startsNumber c) c 0 (text ++ after') = text.length) ∧
      ((after.dropWhile Text.isBlank).head? = some '(' → startsNumber c = true) ∧
      item = .ofOperand (.atom (signChars negative ++ c :: text)) text.length) := by
  unfold Scanner.operand at h
  split at h
  · rename_i hopen
    split at h
    · cases h
    · rename_i inside hinside
      cases h
      obtain ⟨hbalanced, after, rfl⟩ := exists_of_inside? hinside
      exact .inl ⟨inside, after, hopen, rfl, hbalanced, by simp⟩
  · rename_i hopen
    -- the atom that begins here, which may be the name of a call
    obtain ⟨text, after, rfl, htext, -, hplain, hagain⟩ := exists_atom (startsNumber c) c 0 rest
    rw [Nat.zero_add] at htext
    simp only [htext, List.take_left, List.drop_left] at h
    split at h
    · rename_i hopening
      split at h
      · cases h
      · rename_i inside hinside
        cases h
        obtain ⟨opening, hdrop⟩ : ∃ opening, after.dropWhile Text.isBlank = '(' :: opening :=
          List.head?_eq_some_iff.1 hopening.1
        have hnumber : startsNumber c = false := by simpa using hopening.2
        rw [hdrop, List.tail_cons] at hinside
        obtain ⟨hbalanced, after', rfl⟩ := exists_of_inside? hinside
        have hafter := List.takeWhile_append_dropWhile (p := Text.isBlank) (l := after)
        rw [hdrop] at hafter
        refine .inr (.inl ⟨text, after.takeWhile Text.isBlank, inside, after', hopen, hnumber, ?_,
          hplain hnumber, fun d hd => List.mem_takeWhile_imp hd, hbalanced, ?_⟩)
        · rw [List.append_assoc]
          exact congrArg (text ++ ·) (hafter.symm.trans (by simp))
        · simp only [List.length_append, List.length_cons, List.length_nil]
          congr 1
          omega
    · rename_i hopening
      cases h
      refine .inr (.inr ⟨text, after, hopen, rfl, htext, fun after' hafter => ?_,
        fun h => by simpa [h] using hopening, rfl⟩)
      rw [hagain 0 after' hafter, Nat.zero_add]

/-- The operand token of a text without its sign. -/
inductive Reads (negative : Bool) : List Char → Operand → Prop where
  | atom {c : Char} {text : List Char} (hc : Operator.ofSymbol? c = none) :
      Reads negative (c :: text) (.atom (signChars negative ++ c :: text))
  | group {inside : List Char} :
      Reads negative ('(' :: inside ++ [')']) (.group negative inside)
  | call {name b inside : List Char} (hb : Blank b) :
      Reads negative (name ++ (b ++ ('(' :: inside ++ [')'])))
        (.call negative name (Arguments.split inside))

theorem exists_of_operand {negative : Bool} {c : Char} {rest : List Char} {item : Lexeme}
    (hc : c = '(' ∨ isDelimiter c = false) (h : Scanner.operand negative c rest = .ok item) :
    ∃ text o, Reads negative text o ∧ item.token = some (.operand o) ∧
      item.next = .operator ∧ c :: rest = text ++ rest.drop item.extra := by
  rcases operand_cases h with ⟨inside, after, rfl, rfl, -, rfl⟩ |
    ⟨name, b, inside, after, -, -, rfl, -, hb, -, rfl⟩ | ⟨text, after, hopen, rfl, -, -, -, rfl⟩
  · refine ⟨_, _, .group, rfl, rfl, ?_⟩
    rw [extra_ofOperand]
    simp
  · refine ⟨_, _, .call hb, rfl, rfl, ?_⟩
    rw [extra_ofOperand, List.drop_left]
    rfl
  · refine ⟨_, _, .atom (not_isDelimiter_iff.1 (hc.resolve_left hopen)).2.1, rfl, rfl, ?_⟩
    rw [extra_ofOperand, List.drop_left]
    rfl

/-! ## From tokens to lines -/

section Sound

variable {r : Registry} {options : Options} {Inside : List Char → Expr → Prop}
  {resolve : Operand → Except Fault Expr}

/-- The text after an operand: operators with their operands, then blanks. -/
def Tail (r : Registry) (options : Options) (Inside : List Char → Expr → Prop) (text : List Char)
    (xs : List (Operator × Expr)) : Prop :=
  ∃ rest b, text = rest ++ b ∧ Chain r options Inside rest xs ∧ Blank b

/-- The text from an operand on, of which the sign has been read if there is one. -/
def From (r : Registry) (options : Options) (Inside : List Char → Expr → Prop) (sign : Option Bool)
    (text : List Char) (x : Expr) (xs : List (Operator × Expr)) : Prop :=
  ∃ b operand tail, text = b ++ (operand ++ tail) ∧ Blank b ∧ Tail r options Inside tail xs ∧
    match sign with
    | none => Signed r options Inside operand x
    | some negative => ∃ e, Primary r options Inside operand e ∧ x = e.withSign options negative

theorem Tail.blank {c : Char} {text : List Char} {xs : List (Operator × Expr)}
    (hc : Text.isBlank c = true) (h : Tail r options Inside text xs) :
    Tail r options Inside (c :: text) xs := by
  obtain ⟨rest, b, rfl, hrest, hb⟩ := h
  have hcons {b : List Char} (hb : Blank b) : Blank (c :: b) :=
    List.forall_mem_cons.2 ⟨hc, hb⟩
  cases hrest with
  | nil => exact ⟨[], c :: b, rfl, .nil, hcons hb⟩
  | @cons b₁ b₂ _ _ op _ _ hb₁ hb₂ h hrest =>
    exact ⟨_, b, rfl, .cons (hcons hb₁) hb₂ h hrest, hb⟩

theorem Tail.operator {text : List Char} {op : Operator} {x : Expr}
    {xs : List (Operator × Expr)} (h : From r options Inside none text x xs) :
    Tail r options Inside (op.symbol :: text) ((op, x) :: xs) := by
  obtain ⟨b, operand, tail, rfl, hb, ⟨rest, b', rfl, hrest, hb'⟩, hx⟩ := h
  refine ⟨[] ++ op.symbol :: (b ++ (operand ++ rest)), b', by simp, ?_, hb'⟩
  exact .cons blank_nil hb hx hrest

theorem From.blank {sign : Option Bool} {c : Char} {text : List Char} {x : Expr}
    {xs : List (Operator × Expr)} (hc : Text.isBlank c = true)
    (h : From r options Inside sign text x xs) : From r options Inside sign (c :: text) x xs := by
  obtain ⟨b, operand, tail, rfl, hb, htail, hx⟩ := h
  exact ⟨c :: b, operand, tail, rfl, List.forall_mem_cons.2 ⟨hc, hb⟩, htail, hx⟩

theorem From.plus {text : List Char} {x : Expr} {xs : List (Operator × Expr)}
    (h : From r options Inside (some false) text x xs) :
    From r options Inside none ('+' :: text) x xs := by
  obtain ⟨b, operand, tail, rfl, hb, htail, e, he, rfl⟩ := h
  exact ⟨[], '+' :: (b ++ operand), tail, by simp, blank_nil, htail, .plus hb he⟩

theorem From.minus {text : List Char} {x : Expr} {xs : List (Operator × Expr)}
    (h : From r options Inside (some true) text x xs) :
    From r options Inside none ('-' :: text) x xs := by
  obtain ⟨b, operand, tail, rfl, hb, htail, e, he, rfl⟩ := h
  exact ⟨[], '-' :: (b ++ operand), tail, by simp, blank_nil, htail, .minus hb he⟩

/-- What has been scanned and resolved from a place on, by what was expected there. -/
def Scanned (r : Registry) (options : Options) (Inside : List Char → Expr → Prop)
    (resolve : Operand → Except Fault Expr) (text : List Char) (tokens : List Token) :
    Expecting → Prop
  | .operator => ∀ xs, Resolved resolve tokens xs → Tail r options Inside text xs
  | .operand sign => ∀ o rest x xs, tokens = .operand o :: rest → resolve o = .ok x →
      Resolved resolve rest xs → From r options Inside sign text x xs

theorem scanned_of_scanFrom
    (hprimary : ∀ negative text o x, Reads negative text o → resolve o = .ok x →
      ∃ e, Primary r options Inside text e ∧ x = e.withSign options negative)
    {expecting : Expecting} {behind text : List Char} {tokens : List Token}
    (h : scanFrom expecting behind text = .ok tokens) :
    Scanned r options Inside resolve text tokens expecting := by
  match text with
  | [] =>
    cases expecting with
    | operator =>
      rw [scanFrom_operator_nil] at h
      cases h
      intro xs hxs
      cases hxs
      exact ⟨[], [], rfl, .nil, blank_nil⟩
    | operand sign =>
      rw [scanFrom_operand_nil] at h
      cases h
  | c :: rest =>
    obtain ⟨item, behind', tokens', hitem, htokens, rfl⟩ := exists_of_scanFrom_cons h
    -- the rest of the text after the lexeme, by what the lexeme makes the scanner expect
    have ih := scanned_of_scanFrom hprimary htokens
    rcases lexeme_cases hitem with ⟨hblank, rfl⟩ | ⟨op, rfl, rfl, rfl⟩ | ⟨rfl, rfl, rfl⟩ |
      ⟨rfl, rfl, rfl⟩ | ⟨sign, rfl, hc, hoperand⟩
    · cases expecting with
      | operator =>
        intro xs hxs
        exact (ih xs hxs).blank hblank
      | operand sign =>
        intro o rest x xs heq hx hxs
        exact (ih o rest x xs heq hx hxs).blank hblank
    · intro xs hxs
      cases hxs with
      | cons hx hrest => exact .operator (ih _ _ _ _ rfl hx hrest)
    · intro o rest x xs heq hx hxs
      exact (ih o rest x xs heq hx hxs).plus
    · intro o rest x xs heq hx hxs
      exact (ih o rest x xs heq hx hxs).minus
    · obtain ⟨operand, o, hreads, htoken, hnext, htext⟩ := exists_of_operand hc hoperand
      rw [hnext] at ih
      intro o' rest' x xs heq hx hxs
      rw [htoken] at heq
      cases heq
      obtain ⟨e, he, rfl⟩ := hprimary _ _ _ _ hreads hx
      refine ⟨[], operand, _, htext, blank_nil, ih xs hxs, ?_⟩
      cases sign with
      | none => exact .plain he
      | some negative => exact ⟨e, he, rfl⟩
termination_by text.length
decreasing_by
  simp only [List.length_drop, List.length_cons]
  omega

/-- A text whose tokens resolve is a line. -/
theorem line_of_scan
    (hprimary : ∀ negative text o x, Reads negative text o → resolve o = .ok x →
      ∃ e, Primary r options Inside text e ∧ x = e.withSign options negative)
    {text : List Char} {o : Operand} {tokens : List Token} {x : Expr}
    {xs : List (Operator × Expr)} (h : scan text = .ok (.operand o :: tokens))
    (hx : resolve o = .ok x) (hxs : Resolved resolve tokens xs) :
    Line r options Inside text (group options x xs) := by
  obtain ⟨b, operand, tail, rfl, hb, ⟨rest, b', rfl, hrest, hb'⟩, hsigned⟩ :=
    scanned_of_scanFrom hprimary h o tokens x xs rfl hx hxs
  exact .intro hb hsigned hrest hb'

end Sound

/-! ## From lines to tokens -/

section Lexeme

variable {expecting : Expecting} {behind rest : List Char}

theorem lexeme_blank {c : Char} (hc : Text.isBlank c = true) :
    lexeme expecting behind c rest = .ok ⟨none, expecting, 0⟩ := by
  unfold lexeme
  rw [if_pos hc]

theorem lexeme_operator (op : Operator) : lexeme .operator behind op.symbol rest =
    .ok ⟨some (.operator op), .operand none, 0⟩ := by
  unfold lexeme
  rw [if_neg (by simp [(inert_symbol op).1]), Operator.ofSymbol?_symbol]

theorem lexeme_plus : lexeme (.operand none) behind '+' rest =
    .ok ⟨none, .operand (some false), 0⟩ := by
  unfold lexeme
  rw [if_neg (by decide), show Operator.ofSymbol? '+' = some .add from rfl]

theorem lexeme_minus : lexeme (.operand none) behind '-' rest =
    .ok ⟨none, .operand (some true), 0⟩ := by
  unfold lexeme
  rw [if_neg (by decide), show Operator.ofSymbol? '-' = some .sub from rfl]

theorem lexeme_operand {sign : Option Bool} {c : Char} (hc : c = '(' ∨ isDelimiter c = false) :
    lexeme (.operand sign) behind c rest = Scanner.operand (sign.getD false) c rest := by
  obtain ⟨hblank, hsymbol, hclosing, hcomma⟩ : Text.isBlank c = false ∧
      Operator.ofSymbol? c = none ∧ c ≠ ')' ∧ c ≠ ',' := by
    rcases hc with rfl | hc
    · decide
    · have hplain := not_isDelimiter_iff.1 hc
      exact ⟨hplain.1, hplain.2.1, hplain.2.2.2⟩
  unfold lexeme
  rw [if_neg (by simp [hblank]), hsymbol]
  show (if c = ')' then _ else _) = _
  rw [if_neg hclosing, if_neg hcomma]

end Lexeme

theorem Scans.blank {expecting : Expecting} {b text : List Char} {tokens : List Token}
    (hb : Blank b) (h : Scans expecting text tokens) : Scans expecting (b ++ text) tokens := by
  induction b with
  | nil => exact h
  | cons c b ih =>
    obtain ⟨hc, hb⟩ := List.forall_mem_cons.1 hb
    exact Scans.cons (fun _ => lexeme_blank hc) (ih hb)

theorem Scans.operator {op : Operator} {text : List Char} {tokens : List Token}
    (h : Scans (.operand none) text tokens) :
    Scans .operator (op.symbol :: text) (.operator op :: tokens) :=
  Scans.cons (fun _ => lexeme_operator op) h

theorem Scans.plus {text : List Char} {tokens : List Token}
    (h : Scans (.operand (some false)) text tokens) :
    Scans (.operand none) ('+' :: text) tokens :=
  Scans.cons (fun _ => lexeme_plus) h

theorem Scans.minus {text : List Char} {tokens : List Token}
    (h : Scans (.operand (some true)) text tokens) :
    Scans (.operand none) ('-' :: text) tokens :=
  Scans.cons (fun _ => lexeme_minus) h

/-- The text `c :: rest` is scanned as the operand `o` where an operand is expected, whatever
comes after it. -/
structure ReadsAs (negative : Bool) (c : Char) (rest : List Char) (o : Operand) : Prop where
  not_blank : Text.isBlank c = false
  no_symbol : Operator.ofSymbol? c = none
  ne_closing : c ≠ ')'
  ne_comma : c ≠ ','
  reads : ∀ after, Ends after →
    Scanner.operand negative c (rest ++ after) = .ok (.ofOperand o rest.length)

theorem Scans.operand {sign : Option Bool} {c : Char} {rest after : List Char} {o : Operand}
    {tokens : List Token} (hc : c = '(' ∨ isDelimiter c = false)
    (h : Scanner.operand (sign.getD false) c (rest ++ after) = .ok (.ofOperand o rest.length))
    (htail : Scans .operator after tokens) :
    Scans (.operand sign) (c :: rest ++ after) (.operand o :: tokens) := by
  refine Scans.cons (fun _ => (lexeme_operand hc).trans h) ?_
  rw [extra_ofOperand, List.drop_left]
  exact htail

theorem ReadsAs.scans {sign : Option Bool} {negative : Bool} {c : Char}
    {rest after : List Char} {o : Operand} {tokens : List Token} (h : ReadsAs negative c rest o)
    (hsign : sign.getD false = negative) (hafter : Ends after)
    (htail : Scans .operator after tokens) :
    Scans (.operand sign) (c :: rest ++ after) (.operand o :: tokens) := by
  refine Scans.operand ?_ (hsign ▸ h.reads after hafter) htail
  rw [or_iff_not_imp_left]
  exact fun hopen =>
    not_isDelimiter_iff.2 ⟨h.not_blank, h.no_symbol, hopen, h.ne_closing, h.ne_comma⟩

section ReadsAs

variable {negative : Bool} {c : Char} {text : List Char}

theorem operand_atom {after : List Char} (hopen : c ≠ '(')
    (hlength : atomLength (startsNumber c) c 0 (text ++ after) = text.length)
    (hopening : (after.dropWhile Text.isBlank).head? = some '(' → startsNumber c = true) :
    Scanner.operand negative c (text ++ after) =
      .ok (.ofOperand (.atom (signChars negative ++ c :: text)) text.length) := by
  unfold Scanner.operand
  rw [if_neg hopen]
  simp only [hlength, List.take_left, List.drop_left]
  rw [if_neg fun h => by simp [hopening h.1] at h]

theorem readsAs_atom (hc : isDelimiter c = false)
    (hlength : ∀ after, Ends after →
      atomLength (startsNumber c) c 0 (text ++ after) = text.length) :
    ReadsAs negative c text (.atom (signChars negative ++ c :: text)) := by
  obtain ⟨hblank, hsymbol, hopen, hclosing, hcomma⟩ := not_isDelimiter_iff.1 hc
  exact ⟨hblank, hsymbol, hclosing, hcomma, fun after hafter =>
    operand_atom hopen (hlength after hafter) fun h => absurd h hafter.head?_ne⟩

theorem readsAs_name (h : Registry.isName (c :: text) = true) :
    ReadsAs negative c text (.atom (signChars negative ++ c :: text)) := by
  obtain ⟨_, _, heq, hstart, hplain⟩ := exists_of_isName h
  cases heq
  refine readsAs_atom (hplain c (by simp)) fun after hafter => ?_
  rw [not_startsNumber_of_isNameStart hstart,
    atomLength_run (fun d hd => hplain d (by simp [hd])) rfl hafter.stops, Nat.zero_add]

theorem operand_group {commas : Bool} (h : Balanced commas text) (after : List Char) :
    Scanner.operand negative '(' (text ++ [')'] ++ after) =
      .ok (.ofOperand (.group negative text) (text ++ [')']).length) := by
  have hinside : inside? (text ++ [')'] ++ after) = some text := by
    rw [List.append_assoc]
    exact inside?_append h after
  unfold Scanner.operand
  rw [if_pos rfl, hinside]
  simp

theorem readsAs_group {commas : Bool} (h : Balanced commas text) :
    ReadsAs negative '(' (text ++ [')']) (.group negative text) :=
  ⟨by decide, by decide, by decide, by decide, fun after _ => operand_group h after⟩

theorem operand_call {name b : List Char} (hopen : c ≠ '(') (hnumber : startsNumber c = false)
    (hname : ∀ d ∈ name, isDelimiter d = false) (hb : Blank b) (h : Balanced true text)
    (after : List Char) :
    Scanner.operand negative c (name ++ (b ++ ('(' :: text ++ [')'])) ++ after) =
      .ok (.ofOperand (.call negative (c :: name) (Arguments.split text))
        (name ++ (b ++ ('(' :: text ++ [')']))).length) := by
  have hafter : name ++ (b ++ ('(' :: text ++ [')'])) ++ after =
      name ++ (b ++ '(' :: (text ++ ')' :: after)) := by
    simp
  have hlength : atomLength false c 0 (name ++ (b ++ '(' :: (text ++ ')' :: after))) =
      name.length := by
    rw [atomLength_run hname rfl (stops_opening hb), Nat.zero_add]
  have hdrop : (b ++ '(' :: (text ++ ')' :: after)).dropWhile Text.isBlank =
      '(' :: (text ++ ')' :: after) := by
    rw [List.dropWhile_append_of_pos hb, List.dropWhile_cons_of_neg (by decide)]
  have htake : (b ++ '(' :: (text ++ ')' :: after)).takeWhile Text.isBlank = b := by
    rw [List.takeWhile_append_of_pos hb, List.takeWhile_cons_of_neg (by decide),
      List.append_nil]
  unfold Scanner.operand
  rw [if_neg hopen, hafter]
  simp only [hnumber, hlength, List.take_left, List.drop_left, hdrop, htake, List.tail_cons,
    inside?_append h]
  rw [if_pos ⟨rfl, rfl⟩]
  simp only [List.length_append, List.length_cons, List.length_nil]
  congr 2
  omega

theorem readsAs_call {name b : List Char} (hnumber : startsNumber c = false)
    (hname : ∀ d ∈ c :: name, isDelimiter d = false) (hb : Blank b) (h : Balanced true text) :
    ReadsAs negative c (name ++ (b ++ ('(' :: text ++ [')'])))
      (.call negative (c :: name) (Arguments.split text)) := by
  obtain ⟨hc, hname⟩ := List.forall_mem_cons.1 hname
  obtain ⟨hblank, hsymbol, hopen, hclosing, hcomma⟩ := not_isDelimiter_iff.1 hc
  exact ⟨hblank, hsymbol, hclosing, hcomma, fun after _ =>
    operand_call hopen hnumber hname hb h after⟩

end ReadsAs

/-- Every primary that is not too tall is scanned as an operand that stands for it. -/
def ReadsPrimaries (r : Registry) (options : Options) (Inside : List Char → Expr → Prop)
    (resolve : Operand → Except Fault Expr) (limit : Nat) : Prop :=
  ∀ negative text e, Primary r options Inside text e →
    (e.withSign options negative).height ≤ limit →
      ∃ c rest o, text = c :: rest ∧ ReadsAs negative c rest o ∧
        resolve o = .ok (e.withSign options negative)

section Complete

variable {r : Registry} {options : Options} {Inside : List Char → Expr → Prop} {limit : Nat}
  {resolve : Operand → Except Fault Expr}

theorem ends_chain {rest b : List Char} {xs : List (Operator × Expr)}
    (h : Chain r options Inside rest xs) (hb : Blank b) : Ends (rest ++ b) := by
  cases h with
  | nil => exact ends_of_blank hb
  | cons hb' _ _ _ =>
    rw [List.append_assoc]
    exact ends_symbol hb' _

theorem exists_scans_signed
    (hprimary : ReadsPrimaries r options Inside resolve limit)
    {text after : List Char} {x : Expr} {tokens : List Token} (h : Signed r options Inside text x)
    (hheight : x.height ≤ limit) (hafter : Ends after) (htail : Scans .operator after tokens) :
    ∃ o, resolve o = .ok x ∧ Scans (.operand none) (text ++ after) (.operand o :: tokens) := by
  cases h with
  | plain h =>
    obtain ⟨c, rest, o, rfl, hreads, ho⟩ := hprimary false _ _ h hheight
    exact ⟨o, ho, hreads.scans rfl hafter htail⟩
  | plus hb h =>
    obtain ⟨c, rest, o, rfl, hreads, ho⟩ := hprimary false _ _ h hheight
    refine ⟨o, ho, ?_⟩
    rw [List.cons_append, List.append_assoc]
    exact Scans.plus (Scans.blank hb (hreads.scans rfl hafter htail))
  | minus hb h =>
    obtain ⟨c, rest, o, rfl, hreads, ho⟩ := hprimary true _ _ h hheight
    refine ⟨o, ho, ?_⟩
    rw [List.cons_append, List.append_assoc]
    exact Scans.minus (Scans.blank hb (hreads.scans rfl hafter htail))

theorem exists_scans_chain
    (hprimary : ReadsPrimaries r options Inside resolve limit)
    {rest b : List Char} {xs : List (Operator × Expr)} (h : Chain r options Inside rest xs)
    (hheight : ∀ p ∈ xs, p.2.height ≤ limit) (hb : Blank b) :
    ∃ tokens, Scans .operator (rest ++ b) tokens ∧ Resolved resolve tokens xs := by
  induction h with
  | nil =>
    refine ⟨[], ?_, .nil⟩
    have hend : Scans .operator [] [] := scanFrom_operator_nil
    have hblank := Scans.blank hb hend
    rwa [List.append_nil] at hblank
  | cons hb₁ hb₂ hx hrest ih =>
    obtain ⟨hxheight, hheight⟩ := List.forall_mem_cons.1 hheight
    obtain ⟨tokens, htokens, hresolved⟩ := ih hheight
    obtain ⟨o, ho, hscans⟩ := exists_scans_signed hprimary hx hxheight (ends_chain hrest hb)
      htokens
    refine ⟨_, ?_, .cons ho hresolved⟩
    simp only [List.append_assoc, List.cons_append]
    exact Scans.blank hb₁ (Scans.operator (Scans.blank hb₂ hscans))

/-- The tokens of a line that is not too tall are scanned, and they resolve. -/
theorem exists_scan_of_line
    (hprimary : ReadsPrimaries r options Inside resolve limit)
    {text : List Char} {e : Expr} (h : Line r options Inside text e) (hheight : e.height ≤ limit) :
    ∃ o tokens x xs, scan text = .ok (.operand o :: tokens) ∧ resolve o = .ok x ∧
      Resolved resolve tokens xs ∧ e = group options x xs := by
  obtain ⟨hb, hfirst, hrest, hb'⟩ := h
  have hbounded := bounded_of_group hheight
  obtain ⟨tokens, htokens, hresolved⟩ := exists_scans_chain hprimary hrest hbounded.2 hb'
  obtain ⟨o, ho, hscans⟩ := exists_scans_signed hprimary hfirst hbounded.1
    (ends_chain hrest hb') htokens
  exact ⟨o, tokens, _, _, Scans.blank hb hscans [], ho, hresolved, rfl⟩

end Complete

end Grammar
end Reckoner

import Mathlib
import Reckoner.Proofs.Grammar.Scanning

/-!
# Texts that are put behind an entry

A text that is scanned goes through to its end, so a longer text begins with the same lexemes but
for the last (`exists_last_lexeme`).  What becomes of the last one depends on what it is and on
what is put behind it, as long as that is nothing the scanner looks ahead for (`Follows`):

* a text that cuts off any atom leaves it alone, and so does every text if a blank stands last
  (`scanFrom_append`);
* a name is glued to an atom that stands last (`scanFrom_append_name`).
-/

namespace Reckoner
namespace Grammar

open Scanner

/-- Nothing that the scanner looks ahead for: neither the digit after the sign of an exponent nor
the parenthesis of a call. -/
structure Follows (after : List Char) : Prop where
  digit : after.head?.any Char.isDigit = false
  opening : (after.dropWhile Text.isBlank).head? ≠ some '('

theorem Follows.name {name : List Char} (h : Registry.isName name = true) : Follows name := by
  obtain ⟨c, rest, rfl, hc, hplain⟩ := exists_of_isName h
  have hc' := not_isDelimiter_iff.1 (hplain c (by simp))
  constructor
  · have hnumber := not_startsNumber_of_isNameStart hc
    rw [startsNumber, Bool.or_eq_false_iff] at hnumber
    exact hnumber.1
  · rw [List.dropWhile_cons_of_neg (by simp [hc'.1])]
    simpa using hc'.2.2.1

/-! ## Atoms -/

section Atoms

variable {numeric : Bool} {previous : Char} {n : Nat} {cs after : List Char}

theorem continuesAtom_append (h : after.head?.any Char.isDigit = false) (c : Char) :
    continuesAtom numeric previous c (cs ++ after) = continuesAtom numeric previous c cs := by
  cases cs with
  | nil =>
    rw [List.nil_append, continuesAtom, continuesAtom, h]
    rfl
  | cons d cs => rfl

/-- An atom that ends before the text does, or is cut off there, is the same atom with more text
behind it. -/
theorem atomLength_append_of_cuts (hafter : Follows after)
    (hend : atomLength numeric previous n cs = n + cs.length → Cuts after) :
    atomLength numeric previous n (cs ++ after) = atomLength numeric previous n cs := by
  induction cs generalizing previous n with
  | nil =>
    rw [List.nil_append, atomLength_of_cuts (hend rfl)]
    rfl
  | cons c cs ih =>
    rw [List.cons_append, atomLength, atomLength, continuesAtom_append hafter.digit]
    split
    · rename_i hc
      refine ih fun hfull => hend ?_
      rw [atomLength, if_pos hc, hfull, List.length_cons]
      omega
    · rfl

/-- An atom that goes to the end of the text goes on with characters that do not delimit. -/
theorem atomLength_append_plain (hafter : Follows after)
    (hplain : ∀ c ∈ after, isDelimiter c = false)
    (hfull : atomLength numeric previous n cs = n + cs.length) :
    atomLength numeric previous n (cs ++ after) = n + (cs ++ after).length := by
  induction cs generalizing previous n with
  | nil =>
    have hrun : atomLength numeric previous n (after ++ []) = n + after.length :=
      atomLength_append hplain
    rwa [List.append_nil] at hrun
  | cons c cs ih =>
    rw [atomLength] at hfull
    split at hfull
    · rename_i hc
      rw [List.cons_append, atomLength, continuesAtom_append hafter.digit, if_pos hc, ih]
      · simp only [List.length_cons]
        omega
      · rw [hfull, List.length_cons]
        omega
    · simp at hfull

/-- The last character of an atom that goes to the end of the text is none that delimits: the
sign of an exponent has a digit behind it. -/
theorem last_of_atomLength (hprevious : cs = [] → isDelimiter previous = false)
    (hfull : atomLength numeric previous n cs = n + cs.length) :
    ∀ d ∈ (previous :: cs).getLast?, isDelimiter d = false := by
  induction cs generalizing previous n with
  | nil => simpa using hprevious rfl
  | cons c cs ih =>
    rw [atomLength] at hfull
    split at hfull
    · rename_i hc
      rw [List.getLast?_cons_cons]
      refine ih (fun hcs => ?_) (n := n + 1) (by rw [hfull, List.length_cons]; omega)
      subst hcs
      simpa [continuesAtom] using hc
    · simp at hfull

end Atoms

/-! ## One lexeme -/

section Lexeme

variable {expecting : Expecting} {behind : List Char} {c : Char} {rest after : List Char}
  {item : Lexeme}

theorem operand_append {negative : Bool} (h : Scanner.operand negative c rest = .ok item)
    (hafter : Follows after) (hend : rest.drop item.extra = [] → Cuts after) :
    Scanner.operand negative c (rest ++ after) = .ok item := by
  rcases operand_cases h with ⟨inside, after', rfl, rfl, hinside, rfl⟩ |
    ⟨name, b, inside, after', hopen, hnumber, rfl, hname, hb, hinside, rfl⟩ |
    ⟨text, after', hopen, rfl, hlength, -, hopening, rfl⟩
  · have hgroup : Scanner.operand negative '(' (inside ++ [')'] ++ (after' ++ after)) = _ :=
      operand_group hinside (after' ++ after)
    simpa using hgroup
  · rw [List.append_assoc]
    exact operand_call hopen hnumber hname hb hinside (after' ++ after)
  · rw [extra_ofOperand, List.drop_left] at hend
    rw [List.append_assoc]
    refine operand_atom hopen ?_ fun h => ?_
    · rw [← List.append_assoc, atomLength_append_of_cuts hafter fun hfull => hend ?_, hlength]
      rw [hlength, List.length_append] at hfull
      exact List.length_eq_zero_iff.1 (by omega)
    · rw [List.dropWhile_append] at h
      split at h
      · exact absurd h hafter.opening
      · rename_i hblank
        rw [List.head?_append_of_ne_nil _ (by simpa using hblank)] at h
        exact hopening h

/-- A lexeme that ends before the text does, or is cut off there, is the same with more text
behind it. -/
theorem lexeme_append (h : lexeme expecting behind c rest = .ok item) (hafter : Follows after)
    (hend : rest.drop item.extra = [] → Cuts after) :
    lexeme expecting behind c (rest ++ after) = .ok item := by
  rcases lexeme_cases h with ⟨hblank, rfl⟩ | ⟨op, rfl, rfl, rfl⟩ | ⟨rfl, rfl, rfl⟩ |
    ⟨rfl, rfl, rfl⟩ | ⟨sign, rfl, hc, hoperand⟩
  · exact lexeme_blank hblank
  · exact lexeme_operator op
  · exact lexeme_plus
  · exact lexeme_minus
  · rw [lexeme_operand hc]
    exact operand_append hoperand hafter hend

theorem extra_le (h : lexeme expecting behind c rest = .ok item) : item.extra ≤ rest.length := by
  rcases lexeme_cases h with ⟨-, rfl⟩ | ⟨op, -, -, rfl⟩ | ⟨-, -, rfl⟩ | ⟨-, -, rfl⟩ |
    ⟨sign, -, -, hoperand⟩
  · exact Nat.zero_le _
  · exact Nat.zero_le _
  · exact Nat.zero_le _
  · exact Nat.zero_le _
  · rcases operand_cases hoperand with ⟨inside, after, -, rfl, -, rfl⟩ |
      ⟨name, b, inside, after, -, -, rfl, -, -, -, rfl⟩ | ⟨text, after, -, rfl, -, -, -, rfl⟩
    all_goals
      rw [extra_ofOperand]
      simp

/-- After a lexeme that ends before the text does, or is cut off there, the scanner goes on with
what is left of the text and what is put behind it. -/
theorem scanFrom_cons_append (h : lexeme expecting behind c rest = .ok item)
    (hafter : Follows after) (hend : rest.drop item.extra = [] → Cuts after) :
    scanFrom expecting behind (c :: (rest ++ after)) = (item.token.toList ++ ·) <$>
      scanFrom item.next ((rest.take item.extra).reverse ++ c :: behind)
        (rest.drop item.extra ++ after) := by
  have hextra := extra_le h
  have hdrop : (rest ++ after).drop item.extra = rest.drop item.extra ++ after :=
    List.drop_append_of_le_length hextra
  have htake : (rest ++ after).take item.extra = rest.take item.extra :=
    List.take_append_of_le_length hextra
  rw [scanFrom_cons, lexeme_append h hafter hend]
  show (scanFrom item.next _ _ >>= _) = _
  rw [hdrop, htake, map_eq_pure_bind]

theorem scanFrom_blank (hc : Text.isBlank c = true) :
    scanFrom expecting behind (c :: rest) = scanFrom expecting (c :: behind) rest := by
  rw [scanFrom_cons, lexeme_blank hc]
  show (scanFrom expecting (c :: behind) rest >>= fun tokens => pure ([] ++ tokens)) = _
  simp

/-- An operand that goes to the end of the text ends with a closing parenthesis, or is an atom. -/
theorem last_operand_cases {negative : Bool} (h : Scanner.operand negative c rest = .ok item)
    (hend : rest.drop item.extra = []) :
    (c :: rest).getLast? = some ')' ∨
      (c ≠ '(' ∧ atomLength (startsNumber c) c 0 rest = rest.length ∧
        item = .ofOperand (.atom (signChars negative ++ c :: rest)) rest.length) := by
  rcases operand_cases h with ⟨inside, after, -, hrest, -, rfl⟩ |
    ⟨name, b, inside, after, -, -, hrest, -, -, -, rfl⟩ |
    ⟨text, after, hopen, hrest, hlength, -, -, rfl⟩
  · rw [← List.singleton_append, ← List.append_assoc] at hrest
    rw [hrest, extra_ofOperand, List.drop_left] at hend
    rw [hrest, hend, List.append_nil, ← List.cons_append, List.getLast?_concat]
    exact .inl rfl
  · rw [hrest, extra_ofOperand, List.drop_left] at hend
    have hclosing : c :: (name ++ (b ++ ('(' :: inside ++ [')'])) ++ after) =
        c :: (name ++ (b ++ '(' :: inside)) ++ [')'] := by
      simp [hend]
    rw [hrest, hclosing, List.getLast?_concat]
    exact .inl rfl
  · rw [hrest, extra_ofOperand, List.drop_left] at hend
    rw [hend, List.append_nil] at hlength hrest
    rw [hrest]
    exact .inr ⟨hopen, hlength, rfl⟩

theorem last_of_operand {negative : Bool} (hc : c = '(' ∨ isDelimiter c = false)
    (h : Scanner.operand negative c rest = .ok item) (hend : rest.drop item.extra = []) :
    ∀ d ∈ (c :: rest).getLast?, d = ')' ∨ isDelimiter d = false := by
  intro d hd
  rcases last_operand_cases h hend with hlast | ⟨hopen, hlength, -⟩
  · rw [hlast] at hd
    exact .inl (Option.some.inj hd).symm
  · exact .inr (last_of_atomLength (fun _ => hc.resolve_left hopen)
      (hlength.trans (Nat.zero_add _).symm) d hd)

/-- What the last lexeme of a text can be: a blank behind an operand, or an operand. -/
theorem last_lexeme_cases (h : lexeme expecting behind c rest = .ok item)
    (hend : rest.drop item.extra = []) (hnext : item.next = .operator) :
    (Text.isBlank c = true ∧ rest = [] ∧ expecting = .operator ∧ item.token = none) ∨
      ∃ sign, expecting = .operand sign ∧ (c = '(' ∨ isDelimiter c = false) ∧
        Scanner.operand (sign.getD false) c rest = .ok item := by
  rcases lexeme_cases h with ⟨hc, rfl⟩ | ⟨op, -, -, rfl⟩ | ⟨-, -, rfl⟩ | ⟨-, -, rfl⟩ | hoperand
  · exact .inl ⟨hc, hend, hnext, rfl⟩
  · cases hnext
  · cases hnext
  · cases hnext
  · exact .inr hoperand

end Lexeme

/-! ## The last lexeme -/

theorem eq_nil_of_scanFrom_nil {expecting : Expecting} {behind : List Char} {tokens : List Token}
    (h : scanFrom expecting behind [] = .ok tokens) : expecting = .operator ∧ tokens = [] := by
  cases expecting with
  | operator =>
    rw [scanFrom_operator_nil] at h
    cases h
    exact ⟨rfl, rfl⟩
  | operand sign =>
    rw [scanFrom_operand_nil] at h
    cases h

/-- The lexemes of a text before the last are the same with more text behind it. -/
theorem exists_last_lexeme {expecting : Expecting} {behind text : List Char} {tokens : List Token}
    (h : scanFrom expecting behind text = .ok tokens) (hne : text ≠ []) :
    ∃ front c rest expecting' item init, text = front ++ c :: rest ∧
      tokens = init ++ item.token.toList ∧
      lexeme expecting' (front.reverse ++ behind) c rest = .ok item ∧
      rest.drop item.extra = [] ∧ item.next = .operator ∧
      ∀ after, Follows after → scanFrom expecting behind (text ++ after) =
        (init ++ ·) <$> scanFrom expecting' (front.reverse ++ behind) (c :: (rest ++ after)) := by
  match text with
  | [] => exact absurd rfl hne
  | c :: rest =>
    rw [scanFrom_cons] at h
    obtain ⟨item, hitem, h⟩ := ok_of_bind_eq_ok h
    obtain ⟨tokens', htokens, h⟩ := ok_of_bind_eq_ok h
    cases h
    by_cases hend : rest.drop item.extra = []
    · rw [hend] at htokens
      obtain ⟨hnext, rfl⟩ := eq_nil_of_scanFrom_nil htokens
      exact ⟨[], c, rest, expecting, item, [], rfl, List.append_nil _, hitem, hend, hnext,
        fun after _ => by simp⟩
    · obtain ⟨front, d, rest', expecting', item', init, htext, rfl, hitem', hend', hnext, hafter⟩ :=
        exists_last_lexeme htokens hend
      refine ⟨c :: rest.take item.extra ++ front, d, rest', expecting', item',
        item.token.toList ++ init, ?_, by rw [List.append_assoc], ?_, hend', hnext,
        fun after hfollows => ?_⟩
      · rw [List.append_assoc, ← htext, List.cons_append, List.take_append_drop]
      · simpa using hitem'
      · have hbehind : (c :: rest.take item.extra ++ front).reverse ++ behind =
            front.reverse ++ ((rest.take item.extra).reverse ++ c :: behind) := by
          simp
        rw [List.cons_append, scanFrom_cons_append hitem hfollows fun h => absurd h hend,
          hafter after hfollows, hbehind, Functor.map_map]
        simp only [List.append_assoc]
termination_by text.length
decreasing_by
  simp only [List.length_drop, List.length_cons]
  omega

section Last

variable {expecting : Expecting} {behind text after : List Char} {tokens : List Token}

/-- A text that is scanned ends with a blank, a closing parenthesis or a character of an atom. -/
theorem last_of_scanFrom (h : scanFrom expecting behind text = .ok tokens) :
    ∀ c ∈ text.getLast?, Text.isBlank c = true ∨ c = ')' ∨ isDelimiter c = false := by
  rcases eq_or_ne text [] with rfl | hne
  · simp
  obtain ⟨front, c, rest, expecting', item, init, rfl, -, hitem, hend, hnext, -⟩ :=
    exists_last_lexeme h hne
  rw [List.getLast?_append_cons]
  rcases last_lexeme_cases hitem hend hnext with ⟨hblank, rfl, -⟩ | ⟨sign, -, hc, hoperand⟩
  · simpa using .inl hblank
  · exact fun d hd => .inr (last_of_operand hc hoperand hend d hd)

/-- What is put behind a text is scanned on its own if it cuts off any atom, or if a blank stands
between. -/
theorem scanFrom_append (h : scanFrom expecting behind text = .ok tokens) (hafter : Follows after)
    (hapart : Cuts after ∨ ∃ c ∈ text.getLast?, Text.isBlank c = true) :
    scanFrom expecting behind (text ++ after) =
      (tokens ++ ·) <$> scanFrom .operator (text.reverse ++ behind) after := by
  rcases eq_or_ne text [] with rfl | hne
  · obtain ⟨rfl, rfl⟩ := eq_nil_of_scanFrom_nil h
    simp
  obtain ⟨front, c, rest, expecting', item, init, rfl, rfl, hitem, hend, hnext, hscan⟩ :=
    exists_last_lexeme h hne
  have hlast : scanFrom expecting' (front.reverse ++ behind) (c :: (rest ++ after)) =
      (item.token.toList ++ ·) <$>
        scanFrom .operator ((front ++ c :: rest).reverse ++ behind) after := by
    rcases hapart with hcuts | ⟨d, hd, hblank⟩
    · have htake : rest.take item.extra = rest :=
        List.take_of_length_le (List.drop_eq_nil_iff.1 hend)
      rw [scanFrom_cons_append hitem hafter fun _ => hcuts, hend, hnext, htake]
      simp
    · -- a blank that stands last is a lexeme of its own
      rw [List.getLast?_append_cons] at hd
      rcases last_lexeme_cases hitem hend hnext with ⟨hc, rfl, rfl, hnone⟩ |
        ⟨sign, -, hc, hoperand⟩
      · rw [List.nil_append, scanFrom_blank hc, hnone]
        simp
      · rcases last_of_operand hc hoperand hend d hd with rfl | hd
        · exact absurd hblank (by decide)
        · rw [(not_isDelimiter_iff.1 hd).1] at hblank
          cases hblank
  rw [hscan after hafter, hlast, Functor.map_map]
  simp only [List.append_assoc]

/-- A name is glued to an atom that stands before it. -/
theorem scanFrom_append_name {name : List Char} (h : scanFrom expecting behind text = .ok tokens)
    (hlast : ∃ c ∈ text.getLast?, isDelimiter c = false) (hname : Registry.isName name = true) :
    ∃ init atom, tokens = init ++ [.operand (.atom atom)] ∧
      scanFrom expecting behind (text ++ name) =
        .ok (init ++ [.operand (.atom (atom ++ name))]) := by
  obtain ⟨d, hd, hdelimiter⟩ := hlast
  obtain ⟨-, -, -, -, hplain⟩ := exists_of_isName hname
  have hfollows := Follows.name hname
  obtain ⟨front, c, rest, expecting', item, init, rfl, rfl, hitem, hend, hnext, hscan⟩ :=
    exists_last_lexeme h (List.ne_nil_of_mem (List.mem_of_getLast? hd))
  rw [List.getLast?_append_cons] at hd
  rcases last_lexeme_cases hitem hend hnext with ⟨hblank, rfl, -⟩ | ⟨sign, rfl, hc, hoperand⟩
  · obtain rfl : c = d := by simpa using hd
    rw [isDelimiter, hblank] at hdelimiter
    cases hdelimiter
  rcases last_operand_cases hoperand hend with hclosing | ⟨hopen, hlength, rfl⟩
  · obtain rfl : ')' = d := Option.some.inj (hclosing.symm.trans hd)
    exact absurd hdelimiter (by decide)
  · -- the atom goes on to the end of the longer text
    have hlonger : atomLength (startsNumber c) c 0 (rest ++ name) = (rest ++ name).length := by
      rw [atomLength_append_plain hfollows hplain (hlength.trans (Nat.zero_add _).symm),
        Nat.zero_add]
    have hglued : Scans (.operand sign) (c :: (rest ++ name) ++ [])
        [.operand (.atom (signChars (sign.getD false) ++ c :: (rest ++ name)))] :=
      Scans.operand hc (operand_atom hopen (by rwa [List.append_nil]) (by simp))
        scanFrom_operator_nil
    rw [List.append_nil] at hglued
    refine ⟨init, signChars (sign.getD false) ++ c :: rest, rfl, ?_⟩
    rw [hscan name hfollows, hglued, List.append_assoc, List.cons_append]
    rfl

end Last

/-! ## Names -/

theorem scans_name {name : List Char} (h : Registry.isName name = true) :
    Scans (.operand none) name [.operand (.atom name)] := by
  obtain ⟨c, rest, rfl, -, -⟩ := exists_of_isName h
  have hscans : Scans (.operand none) (c :: rest ++ []) [.operand (.atom (c :: rest))] :=
    (readsAs_name h).scans rfl (ends_of_blank blank_nil) scanFrom_operator_nil
  rwa [List.append_nil] at hscans

/-- A name where an operator is expected. -/
theorem scanFrom_operator_name {name : List Char} (h : Registry.isName name = true)
    (behind : List Char) :
    scanFrom .operator behind name = .error (.ofFragment .missingOperator name) := by
  obtain ⟨c, rest, rfl, -, hplain⟩ := exists_of_isName h
  obtain ⟨hblank, hsymbol, -, hclosing, hcomma⟩ := not_isDelimiter_iff.1 (hplain c (by simp))
  have hitem : lexeme .operator behind c rest =
      .error (.ofFragment .missingOperator (c :: rest)) := by
    unfold lexeme
    rw [if_neg (by simp [hblank]), hsymbol]
    show (if c = ')' then _ else _) = _
    rw [if_neg hclosing, if_neg hcomma]
  rw [scanFrom_cons, hitem]
  rfl

end Grammar
end Reckoner

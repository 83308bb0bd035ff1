import Mathlib
import Reckoner.Proofs.Grammar.Splitting

/-!
# Parentheses

The scanner looks for the parenthesis that closes a group by counting, and goes over a balanced
text as over one character (`closing?_append`).  In a balanced text the commas inside parentheses
stand at positive depth (`Balanced.depth_nonneg`), so that it is cut at the others only
(`split_comma`, `split_last`).  Entries are balanced (`Level.balanced`), so that the inside of a
group is found again (`inside?_append`) and the arguments of a call are the items of its inside
(`mapM_of_items`, `items_of_mapM`).  Whatever the scanner takes for the inside of a group is
balanced (`exists_of_inside?`).
-/

namespace Reckoner
namespace Grammar

/-- Every parenthesis is closed, and commas stand inside parentheses only unless the flag
allows them outside. -/
inductive Balanced : Bool → List Char → Prop where
  | nil {commas : Bool} : Balanced commas []
  | char {commas : Bool} {c : Char} (hopen : c ≠ '(') (hclose : c ≠ ')')
      (hcomma : c = ',' → commas = true) : Balanced commas [c]
  | append {commas : Bool} {s t : List Char} (hs : Balanced commas s)
      (ht : Balanced commas t) : Balanced commas (s ++ t)
  | group {commas : Bool} {text : List Char} (h : Balanced true text) :
      Balanced commas ('(' :: text ++ [')'])

theorem balanced_of_inert {commas : Bool} {text : List Char} (h : ∀ c ∈ text, Inert c) :
    Balanced commas text := by
  induction text with
  | nil => exact .nil
  | cons c text ih =>
    obtain ⟨-, hopen, hclose, hcomma⟩ := h c (by simp)
    exact .append (s := [c]) (.char hopen hclose fun hc => absurd hc hcomma)
      (ih fun d hd => h d (by simp [hd]))

theorem balanced_of_blank {commas : Bool} {b : List Char} (h : Blank b) :
    Balanced commas b := by
  induction b with
  | nil => exact .nil
  | cons c b ih =>
    have hc := h c (by simp)
    refine .append (s := [c]) (.char ?_ ?_ ?_) (ih fun d hd => h d (by simp [hd]))
    all_goals
      rintro rfl
      exact absurd hc (by decide)

theorem Balanced.allow_commas {commas : Bool} {text : List Char} (h : Balanced commas text) :
    Balanced true text := by
  induction h with
  | nil => exact .nil
  | char hopen hclose _ => exact .char hopen hclose fun _ => rfl
  | append _ _ hs ht => exact .append hs ht
  | group h _ => exact .group h

section Line

variable {r : Registry} {o : Options} {Inside : List Char → Expr → Prop} {text : List Char}
  {e : Expr}

theorem Items.balanced {es : List Expr} (h : Items Inside text es)
    (hinside : ∀ t e, Inside t e → Balanced false t) : Balanced true text := by
  have hcomma : Balanced true [','] := .char (by decide) (by decide) fun _ => rfl
  induction h with
  | blank hb => exact balanced_of_blank hb
  | last h => exact (hinside _ _ h).allow_commas
  | skip hb _ ih => exact .append (balanced_of_blank hb) (.append hcomma ih)
  | cons h _ ih => exact .append (hinside _ _ h).allow_commas (.append hcomma ih)

theorem Primary.balanced (h : Primary r o Inside text e)
    (hinside : ∀ t e, Inside t e → Balanced false t) : Balanced false text := by
  cases h with
  | number hsign h => exact balanced_of_inert (inert_of_readLiteral hsign h).2
  | constant hname h => exact balanced_of_inert (inert_of_isName hname).2
  | group h => exact .group (hinside _ _ h).allow_commas
  | call hname h hb hargs harity =>
    exact .append (balanced_of_inert (inert_of_isName hname).2)
      (.append (balanced_of_blank hb) (.group (hargs.balanced hinside)))

theorem balanced_symbol (op : Operator) : Balanced false [op.symbol] :=
  balanced_of_inert fun c hc => by
    rw [List.mem_singleton.1 hc]
    exact inert_symbol op

theorem Signed.balanced (h : Signed r o Inside text e)
    (hinside : ∀ t e, Inside t e → Balanced false t) : Balanced false text := by
  cases h with
  | plain h => exact h.balanced hinside
  | plus hb h =>
    exact .append (balanced_symbol .add) (.append (balanced_of_blank hb) (h.balanced hinside))
  | minus hb h =>
    exact .append (balanced_symbol .sub) (.append (balanced_of_blank hb) (h.balanced hinside))

theorem Chain.balanced {xs : List (Operator × Expr)} (h : Chain r o Inside text xs)
    (hinside : ∀ t e, Inside t e → Balanced false t) : Balanced false text := by
  induction h with
  | nil => exact .nil
  | @cons _ _ _ _ op _ _ hb hb' h _ ih =>
    exact .append (balanced_of_blank hb) (.append (balanced_symbol op)
      (.append (balanced_of_blank hb') (.append (h.balanced hinside) ih)))

theorem Line.balanced (h : Line r o Inside text e)
    (hinside : ∀ t e, Inside t e → Balanced false t) : Balanced false text := by
  obtain ⟨hb, h, hrest, hb'⟩ := h
  exact .append (balanced_of_blank hb) (.append (h.balanced hinside)
    (.append (hrest.balanced hinside) (balanced_of_blank hb')))

theorem Level.balanced {k : Nat} (h : Level r o k text e) : Balanced false text := by
  induction k generalizing text e with
  | zero => exact h.elim
  | succ k ih => exact Line.balanced h fun t e ht => ih ht

end Line

/-! ## The closing parenthesis -/

theorem closing?_char {c : Char} (hopen : c ≠ '(') (hclose : c ≠ ')') (depth n : Nat)
    (rest : List Char) :
    Scanner.closing? depth n (c :: rest) = Scanner.closing? depth (n + 1) rest := by
  cases depth <;> rw [Scanner.closing?] <;> simp_all

theorem closing?_open (depth n : Nat) (rest : List Char) :
    Scanner.closing? depth n ('(' :: rest) = Scanner.closing? (depth + 1) (n + 1) rest := by
  cases depth <;> rfl

theorem closing?_append {commas : Bool} {text : List Char} (h : Balanced commas text)
    (depth n : Nat) (rest : List Char) :
    Scanner.closing? depth n (text ++ rest) = Scanner.closing? depth (n + text.length) rest := by
  induction h generalizing depth n rest with
  | nil => rfl
  | char hopen hclose _ => exact closing?_char hopen hclose depth n rest
  | append _ _ hs ht => rw [List.append_assoc, hs, ht, List.length_append, Nat.add_assoc]
  | @group _ text _ ih =>
    rw [List.cons_append, List.cons_append, List.append_assoc, closing?_open, ih]
    show Scanner.closing? (depth + 1) _ (')' :: rest) = _
    rw [Scanner.closing?]
    simp only [List.length_append, List.length_cons, List.length_nil]
    congr 1
    omega

theorem inside?_append {commas : Bool} {text : List Char} (h : Balanced commas text)
    (rest : List Char) : Scanner.inside? (text ++ ')' :: rest) = some text := by
  rw [Scanner.inside?, closing?_append h, Scanner.closing?, Option.map_some, Nat.zero_add,
    List.take_left]

/-- A text that closes `depth` parentheses that were opened before it, and all that are opened in
it. -/
def Closes : Nat → List Char → Prop
  | 0, text => Balanced true text
  | depth + 1, text => ∃ s t, text = s ++ ')' :: t ∧ Balanced true s ∧ Closes depth t

theorem Closes.append {depth : Nat} {s t : List Char} (hs : Balanced true s)
    (ht : Closes depth t) : Closes depth (s ++ t) := by
  cases depth with
  | zero => exact Balanced.append hs ht
  | succ depth =>
    obtain ⟨u, v, rfl, hu, hv⟩ := ht
    exact ⟨s ++ u, v, by rw [List.append_assoc], .append hs hu, hv⟩

/-- What is passed up to the closing parenthesis closes what was opened. -/
theorem exists_of_closing? {depth n m : Nat} {cs : List Char}
    (h : Scanner.closing? depth n cs = some m) :
    ∃ text rest, cs = text ++ ')' :: rest ∧ m = n + text.length ∧ Closes depth text := by
  induction cs generalizing depth n with
  | nil => cases depth <;> cases h
  | cons c cs ih =>
    -- a character that is passed belongs to the text
    have hpass {depth depth' : Nat} (h : Scanner.closing? depth (n + 1) cs = some m)
        (hcloses : ∀ text, Closes depth text → Closes depth' (c :: text)) :
        ∃ text rest, c :: cs = text ++ ')' :: rest ∧ m = n + text.length ∧
          Closes depth' text := by
      obtain ⟨text, rest, rfl, rfl, htext⟩ := ih h
      exact ⟨c :: text, rest, rfl, by rw [List.length_cons]; omega, hcloses text htext⟩
    by_cases hopen : c = '('
    · subst hopen
      rw [closing?_open] at h
      refine hpass h fun text htext => ?_
      obtain ⟨s, t, rfl, hs, ht⟩ := htext
      have hgroup : Closes depth ('(' :: s ++ [')'] ++ t) := .append (.group hs) ht
      simpa using hgroup
    by_cases hclose : c = ')'
    · subst hclose
      cases depth with
      | zero => exact ⟨[], cs, rfl, (Option.some.inj h).symm, .nil⟩
      | succ depth => exact hpass h fun text htext => ⟨[], text, rfl, .nil, htext⟩
    · rw [closing?_char hopen hclose] at h
      exact hpass h fun text htext =>
        Closes.append (s := [c]) (.char hopen hclose fun _ => rfl) htext

/-- The inside of a group is balanced. -/
theorem exists_of_inside? {cs inside : List Char} (h : Scanner.inside? cs = some inside) :
    Balanced true inside ∧ ∃ rest, cs = inside ++ ')' :: rest := by
  rw [Scanner.inside?, Option.map_eq_some_iff] at h
  obtain ⟨n, hn, rfl⟩ := h
  obtain ⟨text, rest, rfl, rfl, htext⟩ := exists_of_closing? hn
  rw [Nat.zero_add, List.take_left]
  exact ⟨htext, rest, rfl⟩

/-! ## Commas -/

theorem Balanced.depth_eq {commas : Bool} {text : List Char} (h : Balanced commas text) :
    depth text = 0 := by
  induction h with
  | nil => rfl
  | char hopen hclose _ => rw [depth_singleton, if_neg hopen, if_neg hclose]
  | append _ _ hs ht => rw [depth_append, hs, ht, add_zero]
  | @group _ text _ ih =>
    show depth (['('] ++ text ++ [')']) = 0
    rw [depth_append, depth_append, ih]
    rfl

/-- At no place in a balanced text is the depth negative, and commas stand where it is zero only if
they are allowed outside. -/
theorem Balanced.depth_nonneg {commas : Bool} {text : List Char} (h : Balanced commas text)
    {s t : List Char} {c : Char} (hst : text = s ++ c :: t) :
    0 ≤ depth s ∧ (c = ',' → depth s = 0 → commas = true) := by
  induction h generalizing s c t with
  | nil => simp at hst
  | char _ _ hcomma =>
    rcases List.append_eq_singleton_iff.1 hst.symm with ⟨rfl, hc⟩ | ⟨-, hc⟩
    · obtain ⟨rfl, -⟩ := List.cons.inj hc
      exact ⟨le_rfl, fun hc _ => hcomma hc⟩
    · cases hc
  | append hs _ ihs iht =>
    rcases List.append_eq_append_iff.1 hst with ⟨u, rfl, hu⟩ | ⟨u, hu, hrest⟩
    · rw [depth_append, hs.depth_eq, zero_add]
      exact iht hu
    · cases u with
      | nil =>
        rw [List.append_nil] at hu
        rw [← hu, hs.depth_eq, ← depth_nil]
        exact iht hrest.symm
      | cons d u =>
        obtain ⟨rfl, -⟩ := List.cons.inj hrest
        exact ihs hu
  | @group _ text h ih =>
    cases s with
    | nil =>
      obtain ⟨rfl, -⟩ := List.cons.inj hst
      exact ⟨le_rfl, by simp⟩
    | cons d s =>
      -- what is behind the opening parenthesis is one deeper than inside the group
      rw [List.cons_append, List.cons_append, List.cons.injEq] at hst
      obtain ⟨rfl, hst⟩ := hst
      have hpos : 0 ≤ depth s := by
        rcases List.eq_nil_or_concat t with rfl | ⟨t, e, rfl⟩
        · obtain ⟨rfl, -⟩ := List.append_inj' hst rfl
          exact h.depth_eq.ge
        · rw [List.concat_eq_append, ← List.cons_append, ← List.append_assoc] at hst
          exact (ih (List.append_inj' hst rfl).1).1
      rw [← List.singleton_append, depth_append, depth_singleton, if_pos rfl]
      exact ⟨by omega, by omega⟩

theorem Balanced.uncut {text : List Char} (h : Balanced false text) : Uncut text := by
  intro s t hst hdepth
  cases (h.depth_nonneg hst).2 rfl hdepth

theorem split_comma {text : List Char} (h : Balanced false text) (rest : List Char) :
    Arguments.split (text ++ ',' :: rest) = item text ++ Arguments.split rest := by
  rw [Arguments.split, pieces_comma h.uncut h.depth_eq, filter_trim, Arguments.split,
    filter_trim, List.flatMap_cons]

theorem split_last {text : List Char} (h : Balanced false text) :
    Arguments.split text = item text := by
  rw [Arguments.split, pieces_last h.uncut, filter_trim, List.flatMap_singleton]

/-- The first piece ends at the end of the text or at a comma. -/
theorem pieces_cases (depth : Int) (current text : List Char) :
    Arguments.pieces depth current text = [current.reverse ++ text] ∨
      ∃ piece rest, text = piece ++ ',' :: rest ∧ Arguments.pieces depth current text =
        (current.reverse ++ piece) :: Arguments.pieces 0 [] rest := by
  induction text generalizing depth current with
  | nil => exact .inl (by rw [Arguments.pieces, List.append_nil])
  | cons c text ih =>
    rw [Arguments.pieces]
    split
    · rename_i hcut
      obtain ⟨rfl, rfl⟩ := hcut
      exact .inr ⟨[], text, rfl, by rw [List.append_nil]⟩
    · rcases ih (if c = '(' then depth + 1 else if c = ')' then depth - 1 else depth)
        (c :: current) with h | ⟨piece, rest, rfl, h⟩
      · exact .inl (by rw [h]; simp)
      · exact .inr ⟨c :: piece, rest, rfl, by rw [h]; simp⟩

theorem split_cases (text : List Char) :
    Arguments.split text = item text ∨
      ∃ piece rest, text = piece ++ ',' :: rest ∧
        Arguments.split text = item piece ++ Arguments.split rest := by
  rcases pieces_cases 0 [] text with h | ⟨piece, rest, htext, h⟩
  · refine .inl ?_
    rw [Arguments.split, h, filter_trim, List.flatMap_singleton]
    rfl
  · refine .inr ⟨piece, rest, htext, ?_⟩
    rw [Arguments.split, h, filter_trim, Arguments.split, filter_trim, List.flatMap_cons]
    rfl

/-! ## Arguments -/

section Arguments

variable {f : List Char → Except Fault Expr}

theorem length_of_mapM {texts : List (List Char)} {es : List Expr}
    (h : texts.mapM f = .ok es) : es.length = texts.length := by
  induction texts generalizing es with
  | nil =>
    cases h
    rfl
  | cons text texts ih =>
    rw [List.mapM_cons] at h
    obtain ⟨e, -, h⟩ := ok_of_bind_eq_ok h
    obtain ⟨es, hes, h⟩ := ok_of_bind_eq_ok h
    cases h
    rw [List.length_cons, List.length_cons, ih hes]

/-- The arguments of a call are read if the items are. -/
theorem mapM_of_items {text : List Char} {es : List Expr}
    (h : Items (fun t e => Balanced false t ∧ Text.trim t ≠ [] ∧ f (Text.trim t) = .ok e)
      text es) : (Arguments.split text).mapM f = .ok es := by
  induction h with
  | blank hb =>
    rw [split_last (balanced_of_blank hb), item_of_blank hb]
    rfl
  | last h =>
    obtain ⟨hbalanced, hne, he⟩ := h
    rw [split_last hbalanced, item, if_neg hne, List.mapM_cons, he]
    rfl
  | skip hb _ ih =>
    rw [split_comma (balanced_of_blank hb), item_of_blank hb]
    exact ih
  | cons h _ ih =>
    obtain ⟨hbalanced, hne, he⟩ := h
    rw [split_comma hbalanced, item, if_neg hne, List.singleton_append, List.mapM_cons, he, ih]
    rfl

/-- The items of a call are the arguments that are read. -/
theorem items_of_mapM {text : List Char} {es : List Expr}
    (h : (Arguments.split text).mapM f = .ok es) :
    Items (fun t e => f (Text.trim t) = .ok e) text es := by
  rcases split_cases text with hsplit | ⟨piece, rest, htext, hsplit⟩
  · rw [hsplit, item] at h
    split at h
    · rename_i hblank
      cases h
      exact .blank (trim_eq_nil_iff.1 hblank)
    · rw [List.mapM_cons] at h
      obtain ⟨e, he, h⟩ := ok_of_bind_eq_ok h
      cases h
      exact .last he
  · rw [hsplit, item] at h
    rw [htext]
    split at h
    · rename_i hblank
      exact .skip (trim_eq_nil_iff.1 hblank) (items_of_mapM h)
    · rw [List.singleton_append, List.mapM_cons] at h
      obtain ⟨e, he, h⟩ := ok_of_bind_eq_ok h
      obtain ⟨es, hes, h⟩ := ok_of_bind_eq_ok h
      cases h
      exact .cons he (items_of_mapM hes)
termination_by text.length
decreasing_by
  all_goals
    rw [htext, List.length_append, List.length_cons]
    omega

end Arguments

end Grammar
end Reckoner

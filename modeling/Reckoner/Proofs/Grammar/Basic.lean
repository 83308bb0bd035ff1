import Mathlib
import Reckoner.Proofs.Grammar.Grouping
import Reckoner.Registry
import Reckoner.Text.Blank
import Reckoner.Value.Literal

/-!
# The grammar of entries

An entry is a line `S O (op S O)*` with blanks between any two lexemes: `S` is an
optional sign and `O` a primary, that is, an unsigned literal, a registered constant, an
entry in parentheses, or a registered function with entries as arguments.  The relations
below give the tree along with the text.  They are indexed by what may stand inside
parentheses; `Level r o k` allows `k - 1` levels of them, and `Derives r` any number.

* `Level.of_length_lt`: a text never needs more levels than it has characters;
* `Level.height_le`: its tree is not taller than the text is long.
-/

namespace Reckoner
namespace Grammar

/-- A text of blanks only. -/
def Blank (cs : List Char) : Prop := ∀ c ∈ cs, Text.isBlank c = true

theorem blank_nil : Blank [] := by
  intro c hc
  simp at hc

theorem blank_space : Blank [' '] := by
  intro c hc
  rw [List.mem_singleton.1 hc]
  decide

theorem Blank.append {s t : List Char} (hs : Blank s) (ht : Blank t) : Blank (s ++ t) :=
  fun c hc => (List.mem_append.1 hc).elim (hs c) (ht c)

/-! ## Derivations -/

section Derivations

variable (r : Registry) (o : Options) (Inside : List Char → Expr → Prop)

/-- The arguments of a call: entries between commas.  Blank items are dropped. -/
inductive Items : List Char → List Expr → Prop where
  | blank {b : List Char} (hb : Blank b) : Items b []
  | last {text : List Char} {e : Expr} (h : Inside text e) : Items text [e]
  | skip {b rest : List Char} {es : List Expr} (hb : Blank b) (hrest : Items rest es) :
      Items (b ++ ',' :: rest) es
  | cons {text rest : List Char} {e : Expr} {es : List Expr} (h : Inside text e)
      (hrest : Items rest es) : Items (text ++ ',' :: rest) (e :: es)

/-- An operand without its sign. -/
inductive Primary : List Char → Expr → Prop where
  | number {text : List Char} {v : Value} (hsign : Value.cutSign text = (false, text))
      (h : Value.readLiteral text = .ok v) : Primary text (.literal v)
  | constant {name : List Char} {c : Constant} (hname : Registry.isName name = true)
      (h : r.constant? (String.ofList name) = some c) :
      Primary name (.constant c.name c.value)
  | group {text : List Char} {e : Expr} (h : Inside text e) :
      Primary ('(' :: text ++ [')']) e
  | call {name b text : List Char} {f : Function} {args : List Expr}
      (hname : Registry.isName name = true)
      (h : r.function? (String.ofList name) = some f) (hb : Blank b)
      (hargs : Items Inside text args) (harity : f.arity.accepts args.length = true) :
      Primary (name ++ (b ++ ('(' :: text ++ [')']))) (.call o f args)

/-- An operand with an optional sign, which it takes before any operator does. -/
inductive Signed : List Char → Expr → Prop where
  | plain {text : List Char} {e : Expr} (h : Primary r o Inside text e) : Signed text e
  | plus {b text : List Char} {e : Expr} (hb : Blank b) (h : Primary r o Inside text e) :
      Signed ('+' :: (b ++ text)) e
  | minus {b text : List Char} {e : Expr} (hb : Blank b) (h : Primary r o Inside text e) :
      Signed ('-' :: (b ++ text)) (e.negate o)

/-- The operators of a line with their right operands. -/
inductive Chain : List Char → List (Operator × Expr) → Prop where
  | nil : Chain [] []
  | cons {b b' text rest : List Char} {op : Operator} {e : Expr}
      {xs : List (Operator × Expr)} (hb : Blank b) (hb' : Blank b')
      (h : Signed r o Inside text e) (hrest : Chain rest xs) :
      Chain (b ++ op.symbol :: (b' ++ (text ++ rest))) ((op, e) :: xs)

/-- A line and the tree it is grouped to. -/
inductive Line : List Char → Expr → Prop where
  | intro {b b' text rest : List Char} {e : Expr} {xs : List (Operator × Expr)}
      (hb : Blank b) (h : Signed r o Inside text e) (hrest : Chain r o Inside rest xs)
      (hb' : Blank b') : Line (b ++ (text ++ (rest ++ b'))) (group o e xs)

end Derivations

/-- The lines with less than `k` levels of parentheses. -/
def Level (r : Registry) (o : Options) : Nat → List Char → Expr → Prop
  | 0 => fun _ _ => False
  | k + 1 => Line r o (Level r o k)

/-- The text is an entry over the names of `r`, and `e` is its tree, all of whose nodes are
calculated under `o`. -/
def Derives (r : Registry) (o : Options) (text : List Char) (e : Expr) : Prop :=
  ∃ k, Level r o k text e

/-! ## What is inside is shorter -/

section Mono

variable {r : Registry} {o : Options} {Inside Inside' : List Char → Expr → Prop}

theorem Items.mono {text : List Char} {es : List Expr} (h : Items Inside text es)
    (himp : ∀ t, ∀ e ∈ es, t.length ≤ text.length → Inside t e → Inside' t e) :
    Items Inside' text es := by
  induction h with
  | blank hb => exact .blank hb
  | last h => exact .last (himp _ _ (by simp) le_rfl h)
  | skip hb _ ih =>
    refine .skip hb (ih fun t e he ht => himp t e he ?_)
    simp only [List.length_append, List.length_cons]
    omega
  | cons h _ ih =>
    refine .cons (himp _ _ (by simp) (by simp) h)
      (ih fun t e he ht => himp t e (by simp [he]) ?_)
    simp only [List.length_append, List.length_cons]
    omega

theorem Primary.mono {text : List Char} {e : Expr} (h : Primary r o Inside text e)
    (himp : ∀ t e, t.length < text.length → Inside t e → Inside' t e) :
    Primary r o Inside' text e := by
  cases h with
  | number hsign h => exact .number hsign h
  | constant hname h => exact .constant hname h
  | group h => exact .group (himp _ _ (by simp) h)
  | call hname h hb hargs harity =>
    refine .call hname h hb (hargs.mono fun t e _ ht => himp t e ?_) harity
    simp only [List.length_append, List.length_cons]
    omega

theorem Signed.mono {text : List Char} {e : Expr} (h : Signed r o Inside text e)
    (himp : ∀ t e, t.length < text.length → Inside t e → Inside' t e) :
    Signed r o Inside' text e := by
  have hlength (c : Char) (b text : List Char) :
      text.length ≤ (c :: (b ++ text)).length := by
    simp only [List.length_append, List.length_cons]
    omega
  cases h with
  | plain h => exact .plain (h.mono himp)
  | plus hb h =>
    exact .plus hb (h.mono fun t e ht => himp t e (ht.trans_le (hlength _ _ _)))
  | minus hb h =>
    exact .minus hb (h.mono fun t e ht => himp t e (ht.trans_le (hlength _ _ _)))

theorem Chain.mono {text : List Char} {xs : List (Operator × Expr)}
    (h : Chain r o Inside text xs)
    (himp : ∀ t e, t.length < text.length → Inside t e → Inside' t e) :
    Chain r o Inside' text xs := by
  induction h with
  | nil => exact .nil
  | cons hb hb' h _ ih =>
    refine .cons hb hb' (h.mono fun t e ht => himp t e (ht.trans_le ?_))
      (ih fun t e ht => himp t e (ht.trans_le ?_))
    all_goals
      simp only [List.length_append, List.length_cons]
      omega

theorem Line.mono {text : List Char} {e : Expr} (h : Line r o Inside text e)
    (himp : ∀ t e, t.length < text.length → Inside t e → Inside' t e) :
    Line r o Inside' text e := by
  obtain ⟨hb, h, hrest, hb'⟩ := h
  refine .intro hb (h.mono fun t e ht => himp t e (ht.trans_le ?_))
    (hrest.mono fun t e ht => himp t e (ht.trans_le ?_)) hb'
  all_goals
    simp only [List.length_append]
    omega

end Mono

/-- A text does not need more levels than it has characters. -/
theorem Level.of_length_lt {r : Registry} {o : Options} {k l : Nat} {text : List Char} {e : Expr}
    (h : Level r o k text e) (hl : text.length < l) : Level r o l text e := by
  induction k generalizing l text e with
  | zero => exact h.elim
  | succ k ih =>
    obtain ⟨l, rfl⟩ := Nat.exists_eq_succ_of_ne_zero (Nat.ne_zero_of_lt hl)
    exact Line.mono h fun t e ht hk => ih hk (by omega)

/-! ## Heights -/

theorem height_negate_le (o : Options) (e : Expr) : (e.negate o).height ≤ e.height + 1 := by
  cases e <;> simp [Expr.negate, Expr.height] <;> omega

section Height

variable {r : Registry} {o : Options} {Inside : List Char → Expr → Prop}

theorem Items.height_le {text : List Char} {es : List Expr} (h : Items Inside text es)
    (hinside : ∀ t e, Inside t e → e.height ≤ t.length) :
    Expr.heightAll es ≤ text.length := by
  induction h with
  | blank hb => exact Nat.zero_le _
  | last h =>
    rw [Expr.heightAll, Expr.heightAll, Nat.max_zero]
    exact hinside _ _ h
  | skip hb _ ih =>
    simp only [List.length_append, List.length_cons]
    omega
  | cons h _ ih =>
    have := hinside _ _ h
    simp only [Expr.heightAll, List.length_append, List.length_cons]
    omega

theorem Primary.height_le {text : List Char} {e : Expr} (h : Primary r o Inside text e)
    (hinside : ∀ t e, Inside t e → e.height ≤ t.length) : e.height ≤ text.length := by
  cases h with
  | number hsign h =>
    have hne : text ≠ [] := by
      rintro rfl
      cases h
    exact List.length_pos_of_ne_nil hne
  | constant hname h =>
    have hne : text ≠ [] := by
      rintro rfl
      cases hname
    exact List.length_pos_of_ne_nil hne
  | group h =>
    have := hinside _ _ h
    simp only [List.length_append, List.length_cons]
    omega
  | call hname h hb hargs harity =>
    have := hargs.height_le hinside
    simp only [Expr.height, List.length_append, List.length_cons]
    omega

theorem Signed.height_le {text : List Char} {e : Expr} (h : Signed r o Inside text e)
    (hinside : ∀ t e, Inside t e → e.height ≤ t.length) : e.height ≤ text.length := by
  cases h with
  | plain h => exact h.height_le hinside
  | plus hb h =>
    have := h.height_le hinside
    simp only [List.length_append, List.length_cons]
    omega
  | minus hb h =>
    refine (height_negate_le _ _).trans ?_
    have := h.height_le hinside
    simp only [List.length_append, List.length_cons]
    omega

theorem Chain.weight_le {text : List Char} {xs : List (Operator × Expr)}
    (h : Chain r o Inside text xs) (hinside : ∀ t e, Inside t e → e.height ≤ t.length) (e : Expr) :
    weight e xs ≤ e.height + text.length := by
  induction h generalizing e with
  | nil => exact le_rfl
  | @cons _ _ _ _ _ x _ hb hb' h _ ih =>
    have hx := h.height_le hinside
    have hrest := ih x
    rw [weight_cons]
    simp only [List.length_append, List.length_cons]
    omega

end Height

/-- The tree of a text is not taller than the text is long. -/
theorem Level.height_le {r : Registry} {o : Options} {k : Nat} {text : List Char} {e : Expr}
    (h : Level r o k text e) : e.height ≤ text.length := by
  induction k generalizing text e with
  | zero => exact h.elim
  | succ k ih =>
    obtain ⟨hb, hfirst, hrest, hb'⟩ := h
    have hinside (t : List Char) (e : Expr) (h : Level r o k t e) : e.height ≤ t.length := ih h
    refine (height_group_le _ _).trans ((hrest.weight_le hinside _).trans ?_)
    have := hfirst.height_le hinside
    simp only [List.length_append]
    omega

end Grammar
end Reckoner

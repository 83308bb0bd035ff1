import Mathlib
import Reckoner.Proofs.Grammar.Basic

/-!
# Putting other options into a tree

Every node of a tree keeps the options under which it is calculated.  Those of a tree that is
read are the options of the parser, which change neither its form nor its text:

* `height_withOptions`, `chars_withOptions`: a tree is as tall and is written in the same way
  with other options;
* `Level.withOptions`: the grammar derives it with other options from the same text.
-/

namespace Reckoner
namespace Expr

mutual

/-- The same expression with other options in all its nodes. -/
def withOptions (o : Options) : Expr → Expr
  | literal v => literal v
  | constant name v => constant name v
  | call _ f args => call o f (withOptionsAll o args)
  | binary _ op l r => binary o op (l.withOptions o) (r.withOptions o)

/-- The same for all expressions of a list. -/
def withOptionsAll (o : Options) : List Expr → List Expr
  | [] => []
  | e :: rest => e.withOptions o :: withOptionsAll o rest

end

variable {o o' : Options}

mutual

/-- Only the last options count. -/
theorem withOptions_withOptions : ∀ e : Expr,
    (e.withOptions o).withOptions o' = e.withOptions o'
  | literal v => by rw [withOptions, withOptions]
  | constant name v => by rw [withOptions, withOptions]
  | call options f args => by
    rw [withOptions, withOptions, withOptions, withOptionsAll_withOptionsAll args]
  | binary options op l r => by
    rw [withOptions, withOptions, withOptions, withOptions_withOptions l,
      withOptions_withOptions r]

theorem withOptionsAll_withOptionsAll : ∀ es : List Expr,
    withOptionsAll o' (withOptionsAll o es) = withOptionsAll o' es
  | [] => by rw [withOptionsAll]
  | e :: rest => by
    rw [withOptionsAll, withOptionsAll, withOptionsAll, withOptions_withOptions e,
      withOptionsAll_withOptionsAll rest]

end

/-! ## Form and text -/

theorem withOptions_binary (op : Operator) (l r : Expr) :
    (binary o op l r).withOptions o' = binary o' op (l.withOptions o') (r.withOptions o') := by
  rw [withOptions]

theorem withOptions_negate (e : Expr) :
    (e.negate o).withOptions o' = (e.withOptions o').negate o' := by
  cases e with
  | literal v => simp only [negate, withOptions]
  | constant name v => simp only [negate, withOptions]
  | call options f args => simp only [negate, withOptions]
  | binary options op l r => simp only [negate, withOptions]

theorem withOptions_withSign (negative : Bool) (e : Expr) :
    (e.withSign o negative).withOptions o' = (e.withOptions o').withSign o' negative := by
  cases negative with
  | false => rfl
  | true => exact withOptions_negate e

theorem withOptionsAll_eq_map (es : List Expr) :
    withOptionsAll o es = es.map (withOptions o) := by
  induction es with
  | nil => rw [withOptionsAll, List.map_nil]
  | cons e es ih => rw [withOptionsAll, List.map_cons, ih]

theorem length_withOptionsAll (es : List Expr) : (withOptionsAll o es).length = es.length := by
  rw [withOptionsAll_eq_map, List.length_map]

mutual

theorem height_withOptions : ∀ e : Expr, (e.withOptions o).height = e.height
  | literal v => by rw [withOptions]
  | constant name v => by rw [withOptions]
  | call options f args => by rw [withOptions, height, height, heightAll_withOptionsAll args]
  | binary options op l r => by
    rw [withOptions, height, height, height_withOptions l, height_withOptions r]

theorem heightAll_withOptionsAll : ∀ es : List Expr,
    heightAll (withOptionsAll o es) = heightAll es
  | [] => by rw [withOptionsAll]
  | e :: rest => by
    rw [withOptionsAll, heightAll, heightAll, height_withOptions e, heightAll_withOptionsAll rest]

end

mutual

theorem leaves_withOptions : ∀ e : Expr, (e.withOptions o).leaves = e.leaves
  | literal v => by rw [withOptions]
  | constant name v => by rw [withOptions]
  | call options f args => by rw [withOptions, leaves, leaves, leavesAll_withOptionsAll args]
  | binary options op l r => by
    rw [withOptions, leaves, leaves, leaves_withOptions l, leaves_withOptions r]

theorem leavesAll_withOptionsAll : ∀ es : List Expr,
    leavesAll (withOptionsAll o es) = leavesAll es
  | [] => by rw [withOptionsAll]
  | e :: rest => by
    rw [withOptionsAll, leavesAll, leavesAll, leaves_withOptions e, leavesAll_withOptionsAll rest]

end

mutual

theorem chars_withOptions : ∀ e : Expr, (e.withOptions o).chars = e.chars
  | literal v => by rw [withOptions]
  | constant name v => by rw [withOptions]
  | call options f args => by rw [withOptions, chars, chars, charsAll_withOptionsAll args]
  | binary options op l r => by
    rw [withOptions, chars, chars, chars_withOptions l, chars_withOptions r]

theorem charsAll_withOptionsAll : ∀ es : List Expr,
    charsAll (withOptionsAll o es) = charsAll es
  | [] => by rw [withOptionsAll]
  | e :: rest => by
    rw [withOptionsAll, charsAll, charsAll, chars_withOptions e, charsAll_withOptionsAll rest]

end

end Expr

namespace Grammar

variable {r : Registry} {o o' : Options}

/-! ## Grouping -/

/-- The same line of operands with other options. -/
abbrev chainWithOptions (o : Options) (xs : List (Operator × Expr)) : List (Operator × Expr) :=
  xs.map fun p => (p.1, p.2.withOptions o)

theorem powers_withOptions (e : Expr) (xs : List (Operator × Expr)) :
    powers o' (e.withOptions o') (chainWithOptions o' xs) =
      ((powers o e xs).1.withOptions o', chainWithOptions o' (powers o e xs).2) := by
  induction xs generalizing e with
  | nil => rfl
  | cons p xs ih =>
    obtain ⟨op, x⟩ := p
    rw [chainWithOptions, List.map_cons]
    by_cases hop : op = .pow
    · subst hop
      rw [powers_cons_pow, powers_cons_pow, ih, Expr.withOptions_binary]
    · rw [powers_cons_of_ne hop, powers_cons_of_ne hop, ih]
      rfl

theorem products_withOptions (e : Expr) (xs : List (Operator × Expr)) :
    products o' (e.withOptions o') (chainWithOptions o' xs) =
      ((products o e xs).1.withOptions o', chainWithOptions o' (products o e xs).2) := by
  induction xs generalizing e with
  | nil => rfl
  | cons p xs ih =>
    obtain ⟨op, x⟩ := p
    rw [chainWithOptions, List.map_cons]
    by_cases hop : op = .mul ∨ op = .div
    · rw [products_cons hop, products_cons hop, ← Expr.withOptions_binary (o := o), ih]
    · rw [products_cons_of_not hop, products_cons_of_not hop, ih]
      rfl

theorem sums_withOptions (e : Expr) (xs : List (Operator × Expr)) :
    sums o' (e.withOptions o') (chainWithOptions o' xs) = (sums o e xs).withOptions o' := by
  induction xs generalizing e with
  | nil => rfl
  | cons p xs ih =>
    have hfirst : (Expr.binary o p.1 e p.2).withOptions o' = _ :=
      Expr.withOptions_binary p.1 e p.2
    exact (congrArg (sums o' · (chainWithOptions o' xs)) hfirst.symm).trans (ih _)

theorem group_withOptions (e : Expr) (xs : List (Operator × Expr)) :
    group o' (e.withOptions o') (chainWithOptions o' xs) = (group o e xs).withOptions o' := by
  rw [group_eq, group_eq, terms, terms, powers_withOptions (o := o), products_withOptions (o := o),
    sums_withOptions]

/-! ## Derivations -/

section Derivations

variable {Inside Inside' : List Char → Expr → Prop} {text : List Char} {e : Expr}

theorem Items.withOptions {es : List Expr} (h : Items Inside text es)
    (himp : ∀ t e, Inside t e → Inside' t (e.withOptions o')) :
    Items Inside' text (Expr.withOptionsAll o' es) := by
  induction h with
  | blank hb =>
    rw [Expr.withOptionsAll]
    exact .blank hb
  | last h =>
    rw [Expr.withOptionsAll, Expr.withOptionsAll]
    exact .last (himp _ _ h)
  | skip hb _ ih => exact .skip hb ih
  | cons h _ ih =>
    rw [Expr.withOptionsAll]
    exact .cons (himp _ _ h) ih

theorem Primary.withOptions (h : Primary r o Inside text e)
    (himp : ∀ t e, Inside t e → Inside' t (e.withOptions o')) :
    Primary r o' Inside' text (e.withOptions o') := by
  cases h with
  | number hsign h =>
    rw [Expr.withOptions]
    exact .number hsign h
  | constant hname h =>
    rw [Expr.withOptions]
    exact .constant hname h
  | group h => exact .group (himp _ _ h)
  | call hname h hb hargs harity =>
    rw [Expr.withOptions]
    exact .call hname h hb (hargs.withOptions himp)
      (by rw [Expr.length_withOptionsAll]; exact harity)

theorem Signed.withOptions (h : Signed r o Inside text e)
    (himp : ∀ t e, Inside t e → Inside' t (e.withOptions o')) :
    Signed r o' Inside' text (e.withOptions o') := by
  cases h with
  | plain h => exact .plain (h.withOptions himp)
  | plus hb h => exact .plus hb (h.withOptions himp)
  | minus hb h =>
    rw [Expr.withOptions_negate]
    exact .minus hb (h.withOptions himp)

theorem Chain.withOptions {xs : List (Operator × Expr)} (h : Chain r o Inside text xs)
    (himp : ∀ t e, Inside t e → Inside' t (e.withOptions o')) :
    Chain r o' Inside' text (chainWithOptions o' xs) := by
  induction h with
  | nil => exact .nil
  | cons hb hb' h _ ih => exact .cons hb hb' (h.withOptions himp) ih

/-- Whatever the options, a text has the same tree with these options in it. -/
theorem Level.withOptions {k : Nat} (h : Level r o k text e) :
    Level r o' k text (e.withOptions o') := by
  induction k generalizing text e with
  | zero => exact h.elim
  | succ k ih =>
    obtain ⟨hb, hfirst, hrest, hb'⟩ := h
    rw [← group_withOptions]
    exact .intro hb (hfirst.withOptions fun t e => ih) (hrest.withOptions fun t e => ih) hb'

end Derivations

end Grammar
end Reckoner

import Reckoner.Function
import Reckoner.Token.Basic

/-!
# Expression trees

The leaves of a tree are literals and named constants, already looked up; the inner
nodes are calls of functions, already looked up, and binary operations.  Every inner node
keeps the options under which it is calculated, so that a tree needs nothing else to be
evaluated.  The number of leaves estimates what a tree costs to evaluate, the height
bounds how deep its evaluation goes.  `chars` writes a tree with parentheses around every
operation, so that it reads back without any rule of priority.
-/

namespace Reckoner

/-- An expression. -/
inductive Expr where
  /-- A number as it was written. -/
  | literal (v : Value)
  /-- A constant with its value. -/
  | constant (name : String) (v : Value)
  /-- A function and its arguments, with the options that the function is given. -/
  | call (options : Options) (f : Function) (args : List Expr)
  /-- An operation on two operands, with the options that it is carried out under. -/
  | binary (options : Options) (op : Operator) (left right : Expr)

namespace Expr

instance : Inhabited Expr := ⟨literal 0⟩

/-! ## Size -/

mutual

/-- The number of leaves; a call without arguments counts as one. -/
def leaves : Expr → Nat
  | literal _ | constant _ _ => 1
  | call _ _ args => max 1 (leavesAll args)
  | binary _ _ l r => l.leaves + r.leaves

/-- The number of leaves of all the expressions in a list. -/
def leavesAll : List Expr → Nat
  | [] => 0
  | e :: rest => e.leaves + leavesAll rest

end

mutual

/-- The height; a leaf has height one. -/
def height : Expr → Nat
  | literal _ | constant _ _ => 1
  | call _ _ args => 1 + heightAll args
  | binary _ _ l r => 1 + max l.height r.height

/-- The largest height of the expressions in a list, zero if there are none. -/
def heightAll : List Expr → Nat
  | [] => 0
  | e :: rest => max e.height (heightAll rest)

end

theorem height_pos (e : Expr) : 0 < e.height := by
  cases e <;> simp only [height] <;> omega

theorem height_le_heightAll {es : List Expr} {e : Expr} (h : e ∈ es) :
    e.height ≤ heightAll es := by
  induction es with
  | nil => cases h
  | cons e' es ih =>
    rw [heightAll]
    rcases List.mem_cons.1 h with rfl | h
    · exact Nat.le_max_left _ _
    · exact Nat.le_trans (ih h) (Nat.le_max_right _ _)

/-! ## Signs -/

/-- The opposite: a literal takes the sign itself, anything else is subtracted from
zero. -/
def negate (options : Options) : Expr → Expr
  | literal v => literal (-v)
  | e => binary options .sub (literal 0) e

/-- The expression, or its opposite. -/
def withSign (options : Options) (negative : Bool) (e : Expr) : Expr :=
  if negative then e.negate options else e

/-! ## Subtrees -/

/-- The children of a node, from left to right. -/
def children : Expr → List Expr
  | literal _ | constant _ _ => []
  | call _ _ args => args
  | binary _ _ l r => [l, r]

theorem height_lt_of_mem_children {e c : Expr} (h : c ∈ e.children) : c.height < e.height := by
  cases e with
  | literal v | constant name v => cases h
  | call options f args =>
    have hargs : c.height ≤ heightAll args := height_le_heightAll h
    rw [height]
    omega
  | binary options op l r =>
    have hoperands : c = l ∨ c = r := by simpa [children] using h
    rw [height]
    rcases hoperands with rfl | rfl <;> omega

/-- The node that a path of child numbers leads to. -/
def at? (e : Expr) : List Nat → Option Expr
  | [] => some e
  | i :: path => e.children[i]?.bind fun child => child.at? path

/-! ## Text -/

mutual

/-- The expression with every operation in parentheses. -/
def chars : Expr → List Char
  | literal v => v.chars
  | constant name _ => name.toList
  | call _ f args => f.name.toList ++ '(' :: joinTexts [',', ' '] (charsAll args) ++ [')']
  | binary _ op l r => '(' :: l.chars ++ [' ', op.symbol, ' '] ++ r.chars ++ [')']

/-- The texts of the expressions in a list. -/
def charsAll : List Expr → List (List Char)
  | [] => []
  | e :: rest => e.chars :: charsAll rest

end

/-- The expression with every operation in parentheses, as text. -/
def text (e : Expr) : String := String.ofList e.chars

instance : ToString Expr := ⟨text⟩

end Expr
end Reckoner

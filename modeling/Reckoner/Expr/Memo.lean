import Reckoner.Expr.Basic

/-!
# Memos

A memo remembers the outcomes of the nodes of an expression that have been
evaluated, faults included.  It is a tree of cells laid over the expression; where
it has no cell, nothing has been evaluated, so the empty memo belongs to every
fresh expression.
-/

namespace Reckoner

/-- Cells laid over an expression: the outcome of the node, if it has been evaluated,
and the memos of its children. -/
inductive Memo where
  | mk (outcome? : Option Outcome) (children : List Memo)

namespace Memo

/-- Nothing has been evaluated. -/
def empty : Memo := mk none []

instance : Inhabited Memo := ⟨empty⟩

/-- The outcome of the node, if it has been evaluated. -/
def outcome? : Memo → Option Outcome
  | mk outcome? _ => outcome?

/-- The memos of the children that have one. -/
def children : Memo → List Memo
  | mk _ children => children

@[simp] theorem outcome?_mk (o : Option Outcome) (ms : List Memo) : (mk o ms).outcome? = o := rfl

@[simp] theorem children_mk (o : Option Outcome) (ms : List Memo) : (mk o ms).children = ms := rfl

@[simp] theorem outcome?_empty : empty.outcome? = none := rfl

@[simp] theorem children_empty : empty.children = [] := rfl

/-- The memo of the `i`-th child. -/
def child (m : Memo) (i : Nat) : Memo := m.children.getD i empty

@[simp] theorem child_empty (i : Nat) : empty.child i = empty := by simp [child]

/-- The memo of the node that a path of child numbers leads to. -/
def under (m : Memo) : List Nat → Memo
  | [] => m
  | i :: path => (m.child i).under path

@[simp] theorem under_empty (path : List Nat) : empty.under path = empty := by
  induction path with
  | nil => rfl
  | cons i path ih => simpa [under] using ih

/-- The list with its `i`-th memo replaced, filled up with empty memos before it. -/
def setChild (new : Memo) : Nat → List Memo → List Memo
  | 0, ms => new :: ms.tail
  | i + 1, ms => ms.headD empty :: setChild new i ms.tail

/-- The memo with the part under a path replaced. -/
def replace (m new : Memo) : List Nat → Memo
  | [] => new
  | i :: path => mk m.outcome? (setChild ((m.child i).replace new path) i m.children)

mutual

/-- Which nodes have nothing left to evaluate, in the order node, then children from
left to right.  Leaves never have. -/
def settled : Expr → Memo → List Bool
  | .literal _, _ | .constant _ _, _ => [true]
  | .call _ _ args, m => m.outcome?.isSome :: settledAll args m.children
  | .binary _ _ l r, m =>
    m.outcome?.isSome :: (settled l (m.child 0) ++ settled r (m.child 1))

/-- The same for a list of expressions and their memos. -/
def settledAll : List Expr → List Memo → List Bool
  | [], _ => []
  | e :: rest, ms => settled e (ms.headD empty) ++ settledAll rest ms.tail

end

end Memo
end Reckoner

import Reckoner.Expr.Evaluation

/-!
# Expressions with their memo

A tracked expression carries its memo along while parts of it are evaluated and while
it is built into larger expressions; what has been evaluated stays evaluated.
-/

namespace Reckoner

/-- An expression and what is known of it. -/
structure Tracked where
  expr : Expr
  memo : Memo

namespace Tracked

instance : Inhabited Tracked := ⟨⟨default, .empty⟩⟩

/-- An expression of which nothing has been evaluated. -/
def fresh (e : Expr) : Tracked := ⟨e, .empty⟩

/-- The part under a path. -/
def under? (t : Tracked) (path : List Nat) : Option Tracked :=
  (t.expr.at? path).map fun e => ⟨e, t.memo.under path⟩

/-- Which nodes have nothing left to evaluate, in the order node, then children. -/
def settled (t : Tracked) : List Bool := t.memo.settled t.expr

/-- Evaluates the part under a path by some evaluator, if there is such a part. -/
def evaluateWith (evaluator : Expr → Memo → Traced (Outcome × Memo)) (t : Tracked)
    (path : List Nat) : Option (Traced (Outcome × Tracked)) :=
  (t.under? path).map fun part => do
    let (outcome, memo) ← evaluator part.expr part.memo
    return (outcome, ⟨t.expr, t.memo.replace memo path⟩)

/-- Evaluates the part under a path in stages. -/
def evaluate? : Tracked → List Nat → Option (Traced (Outcome × Tracked)) :=
  evaluateWith Expr.evaluate

/-- Evaluates the part under a path by plain recursion. -/
def valueOf? : Tracked → List Nat → Option (Traced (Outcome × Tracked)) :=
  evaluateWith Expr.valueOf

/-- An operation on two tracked expressions. -/
def binary (options : Options) (op : Operator) (left right : Tracked) : Tracked :=
  ⟨.binary options op left.expr right.expr, .mk none [left.memo, right.memo]⟩

/-- The opposite of a tracked expression. -/
def negate (options : Options) (t : Tracked) : Tracked :=
  match t.expr with
  | .literal v => fresh (.literal (-v))
  | _ => binary options .sub (fresh (.literal 0)) t

end Tracked
end Reckoner

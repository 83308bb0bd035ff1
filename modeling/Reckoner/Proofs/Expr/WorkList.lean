import Mathlib
import Reckoner.Expr.Evaluation

/-!
# Staging from a work list

`Expr.stage` goes down a tree by recursion, which is what staging is meant to avoid: what it does
is done by a loop.  A walk over the tree, with a stack of its own, lists the nodes that are to be
staged, parents before children (`walk`); then they are evaluated in the opposite order
(`settleAll`).  What is left of recursion is that of the evaluator of the nodes, which is a
parameter here.

`valueOfWithin` is an evaluator of which the recursion is counted: it is `valueOf` with the loop
in place of `stage`, but hands every node that lies too deep to somebody else.
-/

namespace Reckoner
namespace Expr

/-! ## Which nodes -/

/-- A node to look at: where it is, what it is and what is known of it. -/
structure Pending where
  path : List Nat
  expr : Expr
  memo : Memo

/-- The children of a node, from left to right. -/
def Pending.children (p : Pending) : List Pending :=
  p.expr.children.mapIdx fun i c => ⟨p.path ++ [i], c, p.memo.child i⟩

theorem sum_sizeOf_lt (es : List Expr) : (es.map sizeOf).sum < sizeOf es := by
  induction es with
  | nil => exact Nat.zero_lt_one
  | cons e rest ih =>
    rw [List.map_cons, List.sum_cons, List.cons.sizeOf_spec]
    omega

theorem sum_sizeOf_children_lt (e : Expr) : (e.children.map sizeOf).sum < sizeOf e := by
  cases e with
  | literal v =>
    rw [literal.sizeOf_spec, Nat.add_comm]
    exact Nat.succ_pos _
  | constant name v =>
    rw [constant.sizeOf_spec, Nat.add_assoc, Nat.add_comm]
    exact Nat.succ_pos _
  | call options f args =>
    have hargs := sum_sizeOf_lt args
    rw [children, call.sizeOf_spec]
    omega
  | binary options op l r =>
    show sizeOf l + (sizeOf r + 0) < _
    rw [binary.sizeOf_spec]
    omega

theorem Pending.map_sizeOf_children (p : Pending) :
    p.children.map (fun c => sizeOf c.expr) = p.expr.children.map sizeOf :=
  List.ext_getElem? fun i => by simp [children, Function.comp_def]

/-- The paths of the nodes to stage, each before those of its children.  The stack begins with
the node to look at next; a node that is ready is dropped with all that is below it. -/
def walk : List Pending → List (List Nat)
  | [] => []
  | p :: stack =>
    if Ready p.expr p.memo then walk stack
    else p.path :: walk (p.children.reverse ++ stack)
termination_by stack => (stack.map fun p => sizeOf p.expr).sum
decreasing_by
  · have := sum_sizeOf_children_lt p.expr
    rw [List.map_cons, List.sum_cons]
    omega
  · have := sum_sizeOf_children_lt p.expr
    rw [List.map_append, List.sum_append, List.map_reverse, List.sum_reverse,
      p.map_sizeOf_children, List.map_cons, List.sum_cons]
    omega

/-- The paths of the nodes to stage in the order in which they are evaluated. -/
def stagingOrder (e : Expr) (m : Memo) : List (List Nat) := (walk [⟨[], e, m⟩]).reverse

/-! ## The loop -/

variable (value : Expr → Memo → Traced (Outcome × Memo))

/-- Evaluates the node under a path, if there is one, and keeps what is then known of it. -/
def settle (e : Expr) (m : Memo) (path : List Nat) : Traced Memo :=
  match e.at? path with
  | some node => (fun x => m.replace x.2 path) <$> value node (m.under path)
  | none => pure m

/-- Evaluates the nodes under some paths, one after the other. -/
def settleAll (e : Expr) (m : Memo) (paths : List (List Nat)) : Traced Memo :=
  paths.foldlM (settle value e) m

/-- The value of a node, after the loop over the nodes to stage. -/
def evaluateBy (e : Expr) (m : Memo) : Traced (Outcome × Memo) := do
  let m ← settleAll value e m (stagingOrder e m)
  value e m

/-- Evaluates some expressions from left to right, up to the first fault. -/
def evaluateEach :
    List Expr → List Memo → Traced (Except Fault (List Value) × List Memo)
  | [], ms => pure (.ok [], ms)
  | e :: rest, ms => do
    let (outcome, m) ← value e (ms.headD .empty)
    match outcome with
    | .error f => return (.error f, m :: ms.tail)
    | .ok v =>
      let (values, ms) ← evaluateEach rest ms.tail
      return (values.map (v :: ·), m :: ms)

/-! ## Counted recursion -/

/-- The value of a node by a recursion of the given number of levels, the node itself being the
first.  What lies deeper, `beyond` has to answer. -/
def valueOfWithin (beyond : Expr → Memo → Traced (Outcome × Memo)) :
    Nat → Expr → Memo → Traced (Outcome × Memo)
  | 0, e, m => beyond e m
  | _ + 1, literal v, m | _ + 1, constant _ v, m => pure (.ok v, m)
  | n + 1, call options f args, m =>
    match m.outcome? with
    | some outcome => pure (outcome, m)
    | none =>
      invoke options f (evaluateEach (evaluateBy (valueOfWithin beyond n)) args) m.children
  | n + 1, binary options op l r, m =>
    match m.outcome? with
    | some outcome => pure (outcome, m)
    | none =>
      operate options op (costs l r) (valueOfWithin beyond n l) (valueOfWithin beyond n r)
        (m.child 0) (m.child 1)

end Expr
end Reckoner

import Reckoner.Expr.Memo
import Reckoner.Shortcut

/-!
# Evaluating an expression

Every inner node is evaluated at most once: its outcome is kept in the memo.  An
operation asks its shortcut rule first, which looks at operands one at a time, so
an operand that is not needed is not evaluated.

Two evaluators share the memo.  `valueOf` evaluates a node by plain recursion.
`evaluate` first calls `stage`, which evaluates the nodes taller than `stageHeight`
from the bottom up, so that no recursion of `valueOf` goes deeper than that height.
The arguments of a call are evaluated by `evaluate`, from left to right, up to the
first fault.

`denote` is what all this computes: the outcome of an expression with neither memo
nor staging.
-/

namespace Reckoner
namespace Expr

/-! ## One node -/

/-- The trees taller than this are evaluated in stages. -/
def stageHeight : Nat := 64

/-- What it costs to evaluate two operands. -/
def costs (l r : Expr) : Costs := ⟨l.leaves, r.leaves⟩

/-- A calculation on the memos of two operands. -/
abbrev OnOperands := StateT (Memo × Memo) Traced

/-- Reads one operand, given how each is read; its memo is kept. -/
def readOperand (readLeft readRight : Memo → Traced (Outcome × Memo)) :
    Side → OnOperands Outcome
  | .left => fun (ml, mr) => (fun (o, ml) => (o, ml, mr)) <$> readLeft ml
  | .right => fun (ml, mr) => (fun (o, mr) => (o, ml, mr)) <$> readRight mr

/-- Evaluates an operation, given how its operands are read: the outcome, and the
memo of the node with the outcome in it. -/
def operate (options : Options) (op : Operator) (costs : Costs)
    (readLeft readRight : Memo → Traced (Outcome × Memo)) (ml mr : Memo) :
    Traced (Outcome × Memo) := do
  let (plan, ml, mr) ←
    ((Operation.plan options costs op).run (readOperand readLeft readRight)).run (ml, mr)
  let outcome ← match plan with
    | .ok operation => operation.conclude options op
    | .error f => pure (.error f)
  return (outcome, .mk (some outcome) [ml, mr])

/-- Evaluates a call, given how its arguments are evaluated: the outcome, and the memo
of the node with the outcome in it. -/
def invoke (options : Options) (f : Function)
    (evaluateArgs : List Memo → Traced (Except Fault (List Value) × List Memo))
    (ms : List Memo) : Traced (Outcome × Memo) := do
  let (values, ms) ← evaluateArgs ms
  let outcome ← match values with
    | .ok values => f.call options values
    | .error x => pure (.error x)
  return (outcome, .mk (some outcome) ms)

/-! ## Trees -/

mutual

/-- The value of a node, by plain recursion; a node that has been evaluated is not
evaluated again. -/
def valueOf : Expr → Memo → Traced (Outcome × Memo)
  | literal v, m | constant _ v, m => pure (.ok v, m)
  | call options f args, m =>
    match m.outcome? with
    | some outcome => pure (outcome, m)
    | none => invoke options f (fun ms => evaluateAll args ms) m.children
  | binary options op l r, m =>
    match m.outcome? with
    | some outcome => pure (outcome, m)
    | none =>
      operate options op (costs l r) (fun m => valueOf l m) (fun m => valueOf r m)
        (m.child 0) (m.child 1)

/-- Evaluates the nodes taller than `stageHeight`, children before parents, and leaves
alone the subtrees that are lower or have been evaluated.  Faults stay in the memo. -/
def stage : Expr → Memo → Traced Memo
  | literal _, m | constant _ _, m => pure m
  | call options f args, m =>
    if (call options f args).height ≤ stageHeight || m.outcome?.isSome then pure m
    else do
      let ms ← stageAll args m.children
      return (← invoke options f (fun ms => evaluateAll args ms) ms).2
  | binary options op l r, m =>
    if (binary options op l r).height ≤ stageHeight || m.outcome?.isSome then pure m
    else do
      let ml ← stage l (m.child 0)
      let mr ← stage r (m.child 1)
      return (← operate options op (costs l r) (fun m => valueOf l m)
        (fun m => valueOf r m) ml mr).2

/-- Evaluates the arguments of a call in stages, from left to right, up to the first
fault. -/
def evaluateAll :
    List Expr → List Memo → Traced (Except Fault (List Value) × List Memo)
  | [], ms => pure (.ok [], ms)
  | e :: rest, ms => do
    let m ← stage e (ms.headD .empty)
    let (outcome, m) ← valueOf e m
    match outcome with
    | .error f => return (.error f, m :: ms.tail)
    | .ok v =>
      let (values, ms) ← evaluateAll rest ms.tail
      return (values.map (v :: ·), m :: ms)

/-- Stages the arguments of a call, from left to right. -/
def stageAll : List Expr → List Memo → Traced (List Memo)
  | [], ms => pure ms
  | e :: rest, ms => do
    let m ← stage e (ms.headD .empty)
    let ms ← stageAll rest ms.tail
    return m :: ms

end

/-- The value of a node, evaluated in stages. -/
def evaluate (e : Expr) (m : Memo) : Traced (Outcome × Memo) := do
  let m ← stage e m
  valueOf e m

/-- The outcome of a fresh expression. -/
def outcome (e : Expr) : Traced Outcome :=
  Prod.fst <$> evaluate e .empty

/-! ## Ready nodes -/

/-- There is nothing to stage: the tree is no taller than a stage, or its root has been
evaluated. -/
def Ready (e : Expr) (m : Memo) : Prop := e.height ≤ stageHeight ∨ m.outcome?.isSome

instance (e : Expr) (m : Memo) : Decidable (Ready e m) := inferInstanceAs (Decidable (_ ∨ _))

theorem not_ready_iff {e : Expr} {m : Memo} :
    ¬ Ready e m ↔ stageHeight < e.height ∧ m.outcome? = none := by
  simp [Ready]

/-- Trees taller than a stage are calls and operations. -/
theorem tall_cases {e : Expr} (h : stageHeight < e.height) :
    (∃ options f args, e = call options f args) ∨ ∃ options op l r, e = binary options op l r := by
  cases e with
  | literal v =>
    rw [height] at h
    exact absurd h (by decide)
  | constant name v =>
    rw [height] at h
    exact absurd h (by decide)
  | call options f args => exact .inl ⟨options, f, args, rfl⟩
  | binary options op l r => exact .inr ⟨options, op, l, r, rfl⟩

section

variable {e : Expr} {m : Memo}

theorem stage_of_ready (h : Ready e m) : stage e m = pure m := by
  cases e with
  | literal v => rw [stage]
  | constant name v => rw [stage]
  | call options f args => rw [stage, if_pos (by simpa [Ready] using h)]
  | binary options op l r => rw [stage, if_pos (by simpa [Ready] using h)]

theorem evaluate_of_ready (h : Ready e m) : evaluate e m = valueOf e m := by
  rw [evaluate, stage_of_ready h, pure_bind]

end

/-! ## What is computed -/

mutual

/-- The outcome of an expression, by recursion with shortcuts and without memo. -/
def denote : Expr → Outcome
  | literal v | constant _ v => .ok v
  | call options f args =>
    match denoteAll args with
    | .ok values => (f.call options values).value
    | .error x => .error x
  | binary options op l r =>
    let plan := (Operation.plan options (costs l r) op).run (m := Id) fun
      | .left => denote l
      | .right => denote r
    match plan with
    | .ok operation => (operation.conclude options op).value
    | .error x => .error x

/-- The values of the arguments of a call, or the first fault among them. -/
def denoteAll : List Expr → Except Fault (List Value)
  | [] => .ok []
  | e :: rest =>
    match denote e with
    | .ok v => (denoteAll rest).map (v :: ·)
    | .error x => .error x

end

end Expr
end Reckoner

import Mathlib
import Reckoner.Expr.Tracked
import Reckoner.Proofs.Expr.Invocations

/-!
# Asking for nodes in any order

A run is a sequence of requests, each for the value of one node of a tracked expression, by
either of the two evaluators.  A step keeps the memo coherent and advances it
(`answer_spec`, `answer_advances`), hence so does a run (`run_spec`, `run_advances`).

* `run_fresh`: every request is answered with what the memo-free recursion gives for its
  node, whatever was asked before; a cell that is filled holds that outcome and keeps it; and
  the functions that were run are those of the call nodes whose cells are filled, each once.
-/

namespace Reckoner

/-! ## The parts of a memo -/

namespace Memo

variable {name : String}

theorem child_zero (m : Memo) : m.child 0 = m.children.headD empty := by
  unfold child
  cases m.children <;> rfl

theorem child_one (m : Memo) : m.child 1 = m.children.tail.headD empty := by
  unfold child
  cases m.children with
  | nil => rfl
  | cons _ rest => cases rest <;> rfl

theorem child_succ (o? : Option Outcome) (m : Memo) (i : Nat) :
    m.child (i + 1) = (mk o? m.children.tail).child i := by
  unfold child
  cases m.children <;> rfl

/-- The memos of the children of a coherent memo are coherent. -/
theorem Coherent.children {e : Expr} {m : Memo} (h : Coherent e m) :
    CoherentAll e.children m.children := by
  cases e with
  | literal v => trivial
  | constant name v => trivial
  | call options f args =>
    rw [Coherent] at h
    exact h.2
  | binary options op l r =>
    rw [Coherent, child_zero, child_one] at h
    exact ⟨h.2.1, h.2.2, trivial⟩

/-- Other coherent memos may be put in for those of the children. -/
theorem Coherent.withChildren {e : Expr} {m : Memo} {ms : List Memo}
    (h : Coherent e m) (hms : CoherentAll e.children ms) :
    Coherent e (mk m.outcome? ms) := by
  cases e with
  | literal v => trivial
  | constant name v => trivial
  | call options f args =>
    rw [Coherent] at h ⊢
    exact ⟨h.1, hms⟩
  | binary options op l r =>
    rw [Coherent] at h
    rw [Coherent, child_zero, child_one]
    exact ⟨h.1, hms.1, hms.2.1⟩

theorem CoherentAll.get : ∀ {es : List Expr} {m : Memo} {i : Nat} {e : Expr},
    CoherentAll es m.children → es[i]? = some e → Coherent e (m.child i)
  | _ :: _, m, 0, _, h, he => by
    cases he
    rw [child_zero]
    exact h.1
  | _ :: rest, m, i + 1, _, h, he => by
    rw [child_succ none]
    exact CoherentAll.get h.2 (show rest[i]? = _ from he)

theorem CoherentAll.setChild {new : Memo} : ∀ {es : List Expr} {ms : List Memo} {i : Nat}
    {e : Expr}, CoherentAll es ms → es[i]? = some e → Coherent e new →
      CoherentAll es (setChild new i ms)
  | _ :: _, _, 0, _, h, he, hnew => by
    cases he
    exact ⟨hnew, h.2⟩
  | _ :: rest, _, i + 1, _, h, he, hnew =>
    ⟨h.1, CoherentAll.setChild h.2 (show rest[i]? = _ from he) hnew⟩

/-- A coherent memo is coherent under every path. -/
theorem Coherent.under {e node : Expr} {m : Memo} {path : List Nat} (h : Coherent e m)
    (hnode : e.at? path = some node) : Coherent node (m.under path) := by
  induction path generalizing e m with
  | nil =>
    cases hnode
    exact h
  | cons i path ih =>
    obtain ⟨child, hchild, hnode⟩ := Option.bind_eq_some_iff.1 hnode
    exact ih (h.children.get hchild) hnode

/-- A coherent memo stays coherent when a coherent one is put in under a path. -/
theorem Coherent.replace {e node : Expr} {m new : Memo} {path : List Nat}
    (h : Coherent e m) (hnode : e.at? path = some node)
    (hnew : Coherent node new) : Coherent e (m.replace new path) := by
  induction path generalizing e m with
  | nil =>
    cases hnode
    exact hnew
  | cons i path ih =>
    obtain ⟨child, hchild, hnode⟩ := Option.bind_eq_some_iff.1 hnode
    exact h.withChildren (h.children.setChild hchild (ih (h.children.get hchild) hnode))

/-! ## What grows under a path -/

/-- The memos of the children of a memo that grows grow. -/
theorem Grows.children {e : Expr} {m m' : Memo} (h : Grows e m m') :
    GrowsAll e.children m.children m'.children := by
  cases e with
  | literal v => trivial
  | constant name v => trivial
  | call options f args =>
    rw [Grows] at h
    exact h.2
  | binary options op l r =>
    rw [Grows, child_zero, child_zero, child_one, child_one] at h
    exact ⟨h.2.1, h.2.2, trivial⟩

theorem GrowsAll.get : ∀ {es : List Expr} {m m' : Memo} {i : Nat} {e : Expr},
    GrowsAll es m.children m'.children → es[i]? = some e → Grows e (m.child i) (m'.child i)
  | _ :: _, m, m', 0, _, h, he => by
    cases he
    rw [child_zero, child_zero]
    exact h.1
  | _ :: rest, m, m', i + 1, _, h, he => by
    rw [child_succ none, child_succ none]
    exact GrowsAll.get h.2 (show rest[i]? = _ from he)

theorem Grows.under {e node : Expr} {m m' : Memo} {path : List Nat} (h : Grows e m m')
    (hnode : e.at? path = some node) : Grows node (m.under path) (m'.under path) := by
  induction path generalizing e m m' with
  | nil =>
    cases hnode
    exact h
  | cons i path ih =>
    obtain ⟨child, hchild, hnode⟩ := Option.bind_eq_some_iff.1 hnode
    exact ih (h.children.get hchild) hnode

/-- A cell that is filled keeps its outcome. -/
theorem Grows.outcome {e : Expr} {m m' : Memo} (h : Grows e m m') {o : Outcome}
    (ho : m.outcome? = some o) : m'.outcome? = some o := by
  cases e with
  | literal v =>
    obtain rfl : m' = m := h
    exact ho
  | constant name v =>
    obtain rfl : m' = m := h
    exact ho
  | call options f args =>
    rw [Grows] at h
    exact h.1 o ho
  | binary options op l r =>
    rw [Grows] at h
    exact h.1 o ho

/-- A filled cell of a coherent memo that has grown from the empty one holds the outcome of
its node; the cells of leaves are never filled. -/
theorem Coherent.outcome {e : Expr} {m : Memo} (h : Coherent e m)
    (hgrown : Grows e empty m) {o : Outcome} (ho : m.outcome? = some o) :
    o = e.denote := by
  cases e with
  | literal v =>
    obtain rfl : m = empty := hgrown
    cases ho
  | constant name v =>
    obtain rfl : m = empty := hgrown
    cases ho
  | call options f args =>
    rw [Coherent] at h
    exact h.1 o ho
  | binary options op l r =>
    rw [Coherent] at h
    exact h.1 o ho

/-! ## What advances under a path -/

/-- What the children of an inner node note, the node has noted. -/
theorem AdvancesAll.node {e : Expr} {m : Memo} {ms : List Memo} {n : Nat}
    (h : AdvancesAll name e.children m.children ms n) (hinner : e.children ≠ []) :
    Advances name e m (.mk m.outcome? ms) n := by
  cases e with
  | literal v => exact absurd rfl hinner
  | constant name v => exact absurd rfl hinner
  | call options f args =>
    constructor
    · rw [Grows]
      exact ⟨fun _ ho => ho, h.grows⟩
    · rw [callsMade, callsMade, Nat.add_assoc]
      exact congrArg _ h.calls
  | binary options op l r =>
    have hgrows := h.grows
    have hcalls := h.calls
    constructor
    · rw [Grows, child_zero, child_zero, child_one, child_one]
      exact ⟨fun _ ho => ho, hgrows.1, hgrows.2.1⟩
    · rw [callsMade, callsMade, child_zero, child_zero, child_one, child_one]
      exact hcalls

theorem AdvancesAll.setChild {new : Memo} {n : Nat} : ∀ {es : List Expr} {m : Memo} {i : Nat}
    {e : Expr}, es[i]? = some e → Advances name e (m.child i) new n →
      AdvancesAll name es m.children (setChild new i m.children) n
  | _ :: rest, m, 0, _, he, h => by
    cases he
    rw [child_zero] at h
    exact AdvancesAll.cons h (.refl rest m.children.tail)
  | e :: rest, m, i + 1, _, he, h => by
    rw [child_succ none] at h
    have hrest := AdvancesAll.setChild (show rest[i]? = _ from he) h
    rw [← Nat.zero_add n]
    exact AdvancesAll.cons (.refl e (m.children.headD empty)) hrest

/-- What advances the memo of a node advances that of the whole expression. -/
theorem Advances.replace {e node : Expr} {m new : Memo} {path : List Nat} {n : Nat}
    (hnode : e.at? path = some node) (h : Advances name node (m.under path) new n) :
    Advances name e m (m.replace new path) n := by
  induction path generalizing e m with
  | nil =>
    cases hnode
    exact h
  | cons i path ih =>
    obtain ⟨child, hchild, hnode⟩ := Option.bind_eq_some_iff.1 hnode
    have hinner : e.children ≠ [] := List.ne_nil_of_mem (List.mem_of_getElem? hchild)
    exact (AdvancesAll.setChild hchild (ih hnode h)).node hinner

end Memo

/-! ## How often a function can run -/

/-- A function whose body runs no other function. -/
def Function.IsQuiet (f : Function) : Prop :=
  ∀ (options : Options) (args : List Value) (name : String),
    (f.body options args).calls name = 0

theorem Function.IsQuiet.calls_le {f : Function} (h : f.IsQuiet) (options : Options)
    (args : List Value) (name : String) :
    (f.call options args).calls name ≤ [f].countP (·.name == name) := by
  have hnote : (Traced.note (.called f.name)).calls name = [f].countP (·.name == name) := by
    simp [Traced.note, Traced.calls, Event.isCallOf, List.countP_cons]
  unfold call
  split
  · rw [run, Traced.calls_bind, h options args name, hnote]
    exact le_rfl
  · exact Nat.zero_le _

namespace Expr

mutual

/-- The functions of the call nodes of an expression, one for each node. -/
def functions : Expr → List Function
  | literal _ | constant _ _ => []
  | call _ f args => f :: functionsAll args
  | binary _ _ l r => l.functions ++ r.functions

/-- The same for a list of expressions. -/
def functionsAll : List Expr → List Function
  | [] => []
  | e :: rest => e.functions ++ functionsAll rest

end

theorem invocation_le {f : Function} (h : f.IsQuiet) (options : Options) (name : String)
    (args : List Expr) : invocation options name f args ≤ [f].countP (·.name == name) := by
  unfold invocation
  split
  · exact h.calls_le ..
  · exact Nat.zero_le _

end Expr

namespace Memo

mutual

/-- Quiet functions of a name have run no more often than there are call nodes of that
name. -/
theorem callsMade_le (name : String) : ∀ (e : Expr) (m : Memo),
    (∀ f ∈ e.functions, f.IsQuiet) →
      callsMade name e m ≤ e.functions.countP (·.name == name)
  | .literal _, _, _ => Nat.zero_le _
  | .constant _ _, _, _ => Nat.zero_le _
  | .call options f args, m, h => by
    rw [Expr.functions, List.forall_mem_cons] at h
    have hnode : (if m.outcome?.isSome then Expr.invocation options name f args else 0) ≤
        [f].countP (·.name == name) := by
      split
      · exact Expr.invocation_le h.1 options name args
      · exact Nat.zero_le _
    rw [callsMade, Expr.functions, ← List.singleton_append, List.countP_append]
    exact Nat.add_le_add hnode (callsMadeAll_le name args m.children h.2)
  | .binary _ _ l r, m, h => by
    rw [Expr.functions, List.forall_mem_append] at h
    rw [callsMade, Expr.functions, List.countP_append]
    exact Nat.add_le_add (callsMade_le name l _ h.1) (callsMade_le name r _ h.2)

theorem callsMadeAll_le (name : String) : ∀ (es : List Expr) (ms : List Memo),
    (∀ f ∈ Expr.functionsAll es, f.IsQuiet) →
      callsMadeAll name es ms ≤ (Expr.functionsAll es).countP (·.name == name)
  | [], _, _ => Nat.zero_le _
  | e :: rest, ms, h => by
    rw [Expr.functionsAll, List.forall_mem_append] at h
    rw [callsMadeAll, Expr.functionsAll, List.countP_append]
    exact Nat.add_le_add (callsMade_le name e _ h.1)
      (callsMadeAll_le name rest _ h.2)

end

end Memo

/-! ## Requests -/

/-- A request for the value of the node under a path: evaluated in stages, or by plain
recursion. -/
inductive Request where
  | evaluate (path : List Nat)
  | valueOf (path : List Nat)
  deriving DecidableEq, Repr

namespace Request

/-- The node that is asked for. -/
def path : Request → List Nat
  | evaluate path | valueOf path => path

/-- The evaluator that is asked. -/
def evaluator : Request → Expr → Memo → Traced (Outcome × Memo)
  | evaluate _ => Expr.evaluate
  | valueOf _ => Expr.valueOf

variable {name : String}

theorem evaluator_spec (q : Request) {e : Expr} {m : Memo} (h : m.Coherent e) :
    e.Fits (q.evaluator e m).value := by
  cases q with
  | evaluate path => exact Expr.evaluate_spec e m h
  | valueOf path => exact Expr.valueOf_spec e m h

theorem evaluator_advances (q : Request) (e : Expr) :
    e.Accounts name (q.evaluator e) := by
  cases q with
  | evaluate path => exact Expr.evaluate_advances e
  | valueOf path => exact Expr.valueOf_advances e

end Request

namespace Tracked

open Memo

/-- The reply to a request, if there is such a node. -/
def reply? (t : Tracked) : Request → Option (Traced (Outcome × Tracked))
  | .evaluate path => t.evaluate? path
  | .valueOf path => t.valueOf? path

/-- Answers a request: with the outcome of the node, or with nothing if there is no such
node. -/
def answer (t : Tracked) (q : Request) : Traced (Option Outcome × Tracked) :=
  match t.reply? q with
  | some reply => Prod.map some id <$> reply
  | none => pure (none, t)

/-- Answers requests one after the other. -/
def run (t : Tracked) : List Request → Traced (List (Option Outcome) × Tracked)
  | [] => pure ([], t)
  | q :: rest => do
    let (o?, t) ← answer t q
    let (os, t) ← run t rest
    return (o? :: os, t)

variable {t : Tracked}

/-- What comes of answering a request, node by node. -/
theorem answer_eq (t : Tracked) (q : Request) :
    t.answer q =
      match t.expr.at? q.path with
      | some node => (fun x => (some x.1, ⟨t.expr, t.memo.replace x.2 q.path⟩)) <$>
          q.evaluator node (t.memo.under q.path)
      | none => pure (none, t) := by
  have hreply : t.reply? q = t.evaluateWith (q.evaluator) q.path := by
    cases q <;> rfl
  rw [answer, hreply, evaluateWith, under?]
  cases t.expr.at? q.path with
  | none => rfl
  | some node => exact Traced.ext rfl (by simp)

/-- A request is answered with the outcome of its node and keeps the memo coherent. -/
theorem answer_spec (h : t.memo.Coherent t.expr) (q : Request) :
    (t.answer q).value.1 = (t.expr.at? q.path).map Expr.denote ∧
      (t.answer q).value.2.expr = t.expr ∧
      (t.answer q).value.2.memo.Coherent t.expr := by
  rw [answer_eq]
  cases hnode : t.expr.at? q.path with
  | none => exact ⟨rfl, rfl, h⟩
  | some node =>
    obtain ⟨houtcome, hmemo⟩ := q.evaluator_spec (h.under hnode)
    exact ⟨congrArg some houtcome, rfl, h.replace hnode hmemo⟩

/-- Answering a request advances the memo by what is noted. -/
theorem answer_advances (name : String) (h : t.memo.Coherent t.expr) (q : Request) :
    Advances name t.expr t.memo (t.answer q).value.2.memo
      ((t.answer q).calls name) := by
  rw [answer_eq]
  cases hnode : t.expr.at? q.path with
  | none => exact .refl t.expr t.memo
  | some node =>
    rw [Traced.calls_map]
    exact .replace hnode (q.evaluator_advances node _ (h.under hnode))

/-! ## Runs -/

theorem run_append (t : Tracked) (before after : List Request) :
    t.run (before ++ after) = do
      let (os, t) ← t.run before
      let (os', t) ← t.run after
      return (os ++ os', t) := by
  induction before generalizing t with
  | nil => exact Traced.ext rfl (by simp [run])
  | cons q before ih =>
    rw [List.cons_append, run, run]
    simp only [ih, bind_assoc, pure_bind, List.cons_append]

theorem run_spec (h : t.memo.Coherent t.expr) (requests : List Request) :
    (t.run requests).value.1 =
        requests.map (fun q => (t.expr.at? q.path).map Expr.denote) ∧
      (t.run requests).value.2.expr = t.expr ∧
      (t.run requests).value.2.memo.Coherent t.expr := by
  induction requests generalizing t with
  | nil => exact ⟨rfl, rfl, h⟩
  | cons q rest ih =>
    obtain ⟨hanswer, hexpr, hcoherent⟩ := answer_spec h q
    obtain ⟨hanswers, hexpr', hcoherent'⟩ := ih (hexpr.symm ▸ hcoherent)
    rw [hexpr] at hanswers hexpr' hcoherent'
    exact ⟨congrArg₂ List.cons hanswer hanswers, hexpr', hcoherent'⟩

theorem run_advances (name : String) (h : t.memo.Coherent t.expr)
    (requests : List Request) :
    Advances name t.expr t.memo (t.run requests).value.2.memo
      ((t.run requests).calls name) := by
  induction requests generalizing t with
  | nil => exact .refl t.expr t.memo
  | cons q rest ih =>
    obtain ⟨-, hexpr, hcoherent⟩ := answer_spec h q
    have hrest := ih (hexpr.symm ▸ hcoherent)
    rw [hexpr] at hrest
    have hstep := (answer_advances name h q).trans hrest
    simpa [run] using hstep

/-- The run goes through the memo that it had after its first requests. -/
theorem memo_run_append (t : Tracked) (before after : List Request) :
    (t.run (before ++ after)).value.2 =
      ((t.run before).value.2.run after).value.2 := by
  rw [run_append]
  rfl

/-- `neg(2) + neg(2) * 0`: one call is needed, the other is skipped.  The product is carried out
under other options than the sum. -/
def negatedSample : Expr :=
  let call := Expr.call {} (.unary "neg" fun _ x => .ok (-x)) [.literal 2]
  .binary {} .add call (.binary { zeroOverZero := .zero } .mul call (.literal 0))

end Tracked
end Reckoner

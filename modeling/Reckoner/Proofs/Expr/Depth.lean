import Mathlib
import Reckoner.Proofs.Expr.Staging

/-!
# Staging keeps the recursion shallow

`valueOfWithin beyond n` is the recursion of the evaluator cut off after `n` levels: what lies
deeper is answered by `beyond`, which may be anything.  So wherever it comes to the same as
`valueOf`, whatever `beyond` is, the recursion did not go deeper.

* A tree that is no taller than a stage needs no more levels than it is high
  (`valueOfWithin_of_low`).
* A node that is due needs one level more than a stage: itself, and below it the children that
  are low (`valueOfWithin_of_due`).  Its tall children have been evaluated and are only read.

In the loop every node is due when its turn comes, so evaluation in stages never goes deeper
(`evaluateBy_valueOfWithin`), however tall the tree is and whatever has been evaluated before.
-/

namespace Reckoner
namespace Expr

open Memo

variable {beyond : Expr → Memo → Traced (Outcome × Memo)}

/-! ## Ready nodes need no loop -/

theorem evaluateBy_of_ready {value : Expr → Memo → Traced (Outcome × Memo)} {e : Expr} {m : Memo}
    (h : Ready e m) : evaluateBy value e m = value e m := by
  rw [evaluateBy, stagingOrder_of_ready h]
  rfl

theorem valueOf_of_isSome {e : Expr} {m : Memo} (htall : stageHeight < e.height)
    {o : Outcome} (h : m.outcome? = some o) : valueOf e m = pure (o, m) := by
  rcases tall_cases htall with ⟨options, f, args, rfl⟩ | ⟨options, op, l, r, rfl⟩
  · rw [valueOf, h]
  · rw [valueOf, h]

/-- A node that has been evaluated is ready. -/
theorem ready_valueOf (e : Expr) (m : Memo) : Ready e (valueOf e m).value.2 := by
  by_cases htall : stageHeight < e.height
  · exact .inr (isSome_valueOf htall m)
  · exact .inl (Nat.le_of_not_lt htall)

/-! ## Counted recursion -/

theorem evaluateAll_eq_evaluateEach (es : List Expr) (ms : List Memo) :
    evaluateAll es ms = evaluateEach evaluate es ms := by
  induction es generalizing ms with
  | nil => rw [evaluateAll, evaluateEach]
  | cons e rest ih =>
    rw [evaluateAll, ih]
    exact (bind_assoc _ _ _).symm

/-- Expressions that are evaluated alike on their own memos are evaluated alike one after the
other. -/
theorem evaluateEach_congr {value value' : Expr → Memo → Traced (Outcome × Memo)}
    {es : List Expr} {ms : List Memo}
    (h : ∀ i c, es[i]? = some c → value c (ms.getD i empty) = value' c (ms.getD i empty)) :
    evaluateEach value es ms = evaluateEach value' es ms := by
  induction es generalizing ms with
  | nil => rw [evaluateEach, evaluateEach]
  | cons e rest ih =>
    have hhead : value e (ms.headD empty) = value' e (ms.headD empty) := by
      simpa only [getD_zero] using h 0 e rfl
    have hrest : evaluateEach value rest ms.tail = evaluateEach value' rest ms.tail :=
      ih fun i c hc => by simpa only [getD_succ] using h (i + 1) c hc
    rw [evaluateEach, evaluateEach, hhead, hrest]

/-- If `n` levels are enough for the children of a node, as long as they are ready, and they are,
then one level more is enough for the node. -/
theorem valueOfWithin_succ {e : Expr} {m : Memo} {n : Nat}
    (hready : ∀ i c, e.children[i]? = some c → Ready c (m.child i))
    (h : ∀ c ∈ e.children, ∀ m, Ready c m →
      valueOfWithin beyond n c m = valueOf c m) :
    valueOfWithin beyond (n + 1) e m = valueOf e m := by
  cases e with
  | literal v => rw [valueOfWithin, valueOf]
  | constant name v => rw [valueOfWithin, valueOf]
  | call options f args =>
    rw [valueOfWithin, valueOf]
    cases m.outcome? with
    | some o => rfl
    | none =>
      have hargs : evaluateEach (evaluateBy (valueOfWithin beyond n)) args m.children =
          evaluateAll args m.children := by
        rw [evaluateAll_eq_evaluateEach]
        refine evaluateEach_congr fun i c hc => ?_
        have hc' : Ready c (m.children.getD i empty) := hready i c hc
        rw [evaluateBy_of_ready hc', evaluate_of_ready hc', h c (List.mem_of_getElem? hc) _ hc']
      rw [invoke, invoke, hargs]
  | binary options op l r =>
    rw [valueOfWithin, valueOf]
    cases m.outcome? with
    | some o => rfl
    | none =>
      have hagree {c : Expr} (hc : c ∈ [l, r]) :
          Agree (fun m m' => m = m' ∧ Ready c m) (valueOfWithin beyond n c)
            (fun m => valueOf c m) := by
        rintro m _ ⟨rfl, hm⟩
        rw [h c hc m hm]
        exact ⟨⟨rfl, rfl, ready_valueOf c m⟩, rfl⟩
      refine Traced.rel_eq_iff.1 ((operate_rel (hagree List.mem_cons_self)
        (hagree (List.mem_cons_of_mem l (List.mem_singleton_self r))) op (costs l r)
        ⟨rfl, hready 0 l rfl⟩ ⟨rfl, hready 1 r rfl⟩).mono ?_)
      rintro _ _ ⟨o, ml, mr, ml', mr', rfl, rfl, ⟨rfl, -⟩, rfl, -⟩
      rfl

/-- A tree that is no taller than a stage is evaluated in as many levels as it is high. -/
theorem valueOfWithin_of_low {n : Nat} {e : Expr} (hlow : e.height ≤ stageHeight)
    (hn : e.height ≤ n) (m : Memo) :
    valueOfWithin beyond n e m = valueOf e m := by
  induction n generalizing e m with
  | zero => exact absurd hn (by have := e.height_pos; omega)
  | succ n ih =>
    have hchild {c : Expr} (hc : c ∈ e.children) : c.height ≤ stageHeight ∧ c.height ≤ n := by
      have := height_lt_of_mem_children hc
      omega
    exact valueOfWithin_succ (fun i c hc => .inl (hchild (List.mem_of_getElem? hc)).1)
      fun c hc m _ => ih (hchild hc).1 (hchild hc).2 m

/-- What is ready is evaluated in no more levels than a stage has. -/
theorem valueOfWithin_of_ready {n : Nat} (hn : stageHeight ≤ n) {e : Expr} {m : Memo}
    (h : Ready e m) : valueOfWithin beyond n e m = valueOf e m := by
  by_cases hlow : e.height ≤ stageHeight
  · exact valueOfWithin_of_low hlow (hlow.trans hn) m
  · obtain ⟨o, ho⟩ := Option.isSome_iff_exists.1 (h.resolve_left hlow)
    obtain ⟨n, rfl⟩ : ∃ k, n = k + 1 := ⟨n - 1, by rw [stageHeight] at hn; omega⟩
    have htall := Nat.lt_of_not_le hlow
    rw [valueOf_of_isSome htall ho]
    rcases tall_cases htall with ⟨options, f, args, rfl⟩ | ⟨options, op, l, r, rfl⟩
    · rw [valueOfWithin, ho]
    · rw [valueOfWithin, ho]

/-- A node that is due is evaluated in one level more than a stage has. -/
theorem valueOfWithin_of_due {e : Expr} {m : Memo} (h : Due e m) :
    valueOfWithin beyond (stageHeight + 1) e m = valueOf e m :=
  valueOfWithin_succ h.children fun _ _ _ hready => valueOfWithin_of_ready le_rfl hready

-- a chain of calls that nobody has staged is one level too deep
example : (valueOfWithin (fun _ m => pure (.error .divisionByZero, m)) (stageHeight + 1)
    (Tracked.nestedCalls 65) .empty).value.1 = .error .divisionByZero := by decide +kernel

/-! ## The loop -/

theorem DueAll.settleAll_eq {e : Expr} {m : Memo} {paths : List (List Nat)}
    (h : DueAll e m paths) :
    settleAll (valueOfWithin beyond (stageHeight + 1)) e m paths =
      settleAll valueOf e m paths := by
  induction paths generalizing m with
  | nil => rfl
  | cons path rest ih =>
    obtain ⟨⟨node, hnode, hdue⟩, hrest⟩ := h
    have hsettle : settle (valueOfWithin beyond (stageHeight + 1)) e m path =
        settle valueOf e m path := by
      rw [settle, settle, hnode]
      simp only [valueOfWithin_of_due hdue]
    rw [settleAll_cons, settleAll_cons, hsettle]
    exact Traced.bind_eq_of_value (ih hrest)

/-- With the work list, evaluation needs one level more than a stage has. -/
theorem evaluateBy_valueOfWithin (e : Expr) (m : Memo) :
    evaluateBy (valueOfWithin beyond (stageHeight + 1)) e m =
      evaluateBy valueOf e m := by
  obtain ⟨hstaged, hdue⟩ := stagedInTurn e m
  have hready : Ready e (settleAll valueOf e m (stagingOrder e m)).value :=
    (ready_stage e m).same hstaged.value.symm
  rw [evaluateBy, evaluateBy, hdue.settleAll_eq]
  exact Traced.bind_eq_of_value (valueOfWithin_of_ready (Nat.le_succ stageHeight) hready)

/-- With the work list, evaluation comes to the same as with the recursion of `stage`. -/
theorem evaluateBy_valueOf (e : Expr) (m : Memo) :
    (evaluateBy valueOf e m).Rel (Answered Same) (evaluate e m) :=
  (stagedInTurn e m).1.bind fun h => valueOf_same e h

theorem DueAll.due {e : Expr} {m : Memo} {before rest : List (List Nat)} {path : List Nat}
    (h : DueAll e m (before ++ path :: rest)) :
    DueAt e (settleAll valueOf e m before).value path :=
  (dueAll_append.1 h).2.1

/-- **Staging keeps the recursion shallow.**  Take any tree, and let anything have been evaluated
before.  The loop over the work list does what `stage` does.  When the turn of a node comes, the
node is taller than a stage and has not been evaluated, its children that are taller than a stage
have been, and its evaluation goes no deeper than a stage below it.  After the loop the root has
been evaluated if it is taller than a stage, and the evaluation as a whole, with all the loops in
it over the arguments of calls, goes no deeper than a stage below the root either. -/
theorem evaluate_shallow (e : Expr) (m : Memo) :
    let after (paths : List (List Nat)) := settleAll valueOf e m paths
    let within := valueOfWithin
    (after (stagingOrder e m)).Rel Same (stage e m) ∧
      (∀ before path rest, stagingOrder e m = before ++ path :: rest →
        let known := (after before).value.under path
        ∃ node, e.at? path = some node ∧ stageHeight < node.height ∧ known.outcome? = none ∧
          (∀ i c, node.children[i]? = some c → stageHeight < c.height →
            (known.child i).outcome?.isSome) ∧
          ∀ beyond, within beyond (stageHeight + 1) node known = valueOf node known) ∧
      (stageHeight < e.height → (after (stagingOrder e m)).value.outcome?.isSome) ∧
      ∀ beyond, (evaluateBy (within beyond (stageHeight + 1)) e m).Rel (Answered Same)
        (evaluate e m) := by
  intro after within
  obtain ⟨hstaged, hdue⟩ := stagedInTurn e m
  refine ⟨hstaged, fun before path rest horder => ?_, fun htall => ?_, fun beyond => ?_⟩
  · rw [horder] at hdue
    obtain ⟨node, hnode, hnodeDue⟩ := hdue.due
    obtain ⟨htall, hempty⟩ := not_ready_iff.1 hnodeDue.not_ready
    refine ⟨node, hnode, htall, hempty, fun i c hc hchild => ?_,
      fun beyond => valueOfWithin_of_due hnodeDue⟩
    exact (hnodeDue.children i c hc).resolve_left (Nat.not_le.2 hchild)
  · have hready : Ready e (after (stagingOrder e m)).value :=
      (ready_stage e m).same hstaged.value.symm
    exact hready.resolve_left (Nat.not_le.2 htall)
  · rw [evaluateBy_valueOfWithin]
    exact evaluateBy_valueOf e m

/-- A sum of two chains of calls.  In the left one a call that is taller than a stage has been
evaluated before; what is to be staged are the call above it, the right chain and the sum. -/
theorem evaluate_shallow_sum_of_chains :
    let e := binary {} .add (Tracked.nestedCalls 66) (Tracked.nestedCalls 65)
    let m := Memo.empty.replace (.mk (some (.ok 5)) []) [0, 0]
    let after (paths : List (List Nat)) := (settleAll valueOf e m paths).value
    let known := (after [[0], [1, 0]]).under [1]
    stagingOrder e m = [[0], [1, 0], [1], []] ∧
      (known.outcome? = none ∧ (known.child 0).outcome?.isSome ∧
        ∀ beyond, valueOfWithin beyond (stageHeight + 1) (Tracked.nestedCalls 65) known =
          valueOf (Tracked.nestedCalls 65) known) ∧
      stageHeight < e.height ∧ (after (stagingOrder e m)).outcome?.isSome := by
  intro e m after known
  have horder : stagingOrder e m = [[0], [1, 0]] ++ [1] :: [[]] := by decide +kernel
  have htall : stageHeight < e.height := by decide +kernel
  obtain ⟨-, hdue, hroot, -⟩ := evaluate_shallow e m
  obtain ⟨node, hnode, -, hempty, hchildren, hwithin⟩ := hdue [[0], [1, 0]] [1] [[]] horder
  obtain rfl : Tracked.nestedCalls 65 = node := Option.some.inj hnode
  exact ⟨horder, ⟨hempty, hchildren 0 _ rfl (by decide +kernel), hwithin⟩, htall, hroot htall⟩

end Expr
end Reckoner

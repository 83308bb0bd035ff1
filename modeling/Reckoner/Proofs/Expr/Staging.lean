import Mathlib
import Reckoner.Proofs.Expr.Cells
import Reckoner.Proofs.Expr.WorkList

/-!
# The work list stages a tree

The walk lists the nodes that are not ready, the last child first, and the loop goes through
its list backwards (`stagingOrder_of_not_ready`).  So the loop does in turn for every child what
it would do for the child alone (`settleAll_below`), and then evaluates the node itself.  By
induction on the tree

* the loop notes the events of `stage` and leaves the same cells,
* every node of the list is `Due` when its turn comes: it is tall and has not been evaluated,
  and its tall children have been.

Both together are `stagedInTurn`.
-/

namespace Reckoner

namespace Memo

theorem setChild_of_ne (o? : Option Outcome) (new : Memo) {i j : Nat} (h : j ≠ i)
    (ms : List Memo) : (mk o? (setChild new i ms)).child j = (mk o? ms).child j := by
  induction i generalizing j ms with
  | zero =>
    obtain ⟨j, rfl⟩ := Nat.exists_eq_succ_of_ne_zero h
    rw [child_succ o? (mk o? ms)]
    rfl
  | succ i ih =>
    cases j with
    | zero =>
      rw [child_zero, child_zero]
      rfl
    | succ j =>
      rw [child_succ o?, child_succ o? (mk o? ms)]
      exact ih (by omega) ms.tail

/-- The second memo is the first with another one in place of that of the `i`-th child. -/
structure Replaced (i : Nat) (m m' new : Memo) : Prop where
  outcome : m'.outcome? = m.outcome?
  child : m'.child i = new
  other : ∀ j, j ≠ i → m'.child j = m.child j

theorem Replaced.refl (i : Nat) (m : Memo) : Replaced i m m (m.child i) :=
  ⟨rfl, rfl, fun _ _ => rfl⟩

theorem Replaced.trans {i : Nat} {m m' m'' new new' : Memo} (h : Replaced i m m' new)
    (h' : Replaced i m' m'' new') : Replaced i m m'' new' :=
  ⟨h'.outcome.trans h.outcome, h'.child, fun j hj => (h'.other j hj).trans (h.other j hj)⟩

theorem replaced_replace (m new : Memo) (i : Nat) (path : List Nat) :
    Replaced i m (m.replace new (i :: path)) ((m.child i).replace new path) :=
  ⟨rfl, child_setChild .., fun _ hj => setChild_of_ne m.outcome? _ hj m.children⟩

end Memo

namespace Expr

open Memo

/-- What holds of a tree if it holds of its children holds of all trees. -/
theorem induction_children {motive : Expr → Prop}
    (h : ∀ e, (∀ c ∈ e.children, motive c) → motive e) (e : Expr) : motive e :=
  h e fun c hc =>
    have : sizeOf c < sizeOf e :=
      (List.le_sum_of_mem (List.mem_map_of_mem hc)).trans_lt (sum_sizeOf_children_lt e)
    induction_children h c
termination_by sizeOf e

/-! ## Nodes that are ready -/

theorem Ready.same {e : Expr} {m m' : Memo} (h : Ready e m) (hm : Same m m') : Ready e m' := by
  rw [Ready] at *
  rwa [← hm.outcome]

/-- The evaluation of an inner node fills its cell. -/
theorem isSome_valueOf {e : Expr} (htall : stageHeight < e.height) (m : Memo) :
    (valueOf e m).value.2.outcome?.isSome := by
  rcases tall_cases htall with ⟨options, f, args, rfl⟩ | ⟨options, op, l, r, rfl⟩
  all_goals
    rw [valueOf]
    split
  · rename_i o ho
    exact Option.isSome_of_eq_some ho
  · exact Option.isSome_of_eq_some (outcome?_invoke ..)
  · rename_i o ho
    exact Option.isSome_of_eq_some ho
  · exact Option.isSome_of_eq_some (outcome?_operate ..)

/-- A node that is not ready is evaluated after its children have been staged. -/
theorem stage_of_not_ready {e : Expr} {m : Memo} (h : ¬ Ready e m) :
    stage e m = (do
      let ms ← stageAll e.children m.children
      Prod.snd <$> valueOf e (.mk none ms)) := by
  rcases tall_cases (not_ready_iff.1 h).1 with ⟨options, f, args, rfl⟩ | ⟨options, op, l, r, rfl⟩
  · rw [stage, if_neg (by simpa [Ready] using h)]
    simp only [children, valueOf, outcome?_mk, children_mk, bind_pure_comp]
  · rw [stage, if_neg (by simpa [Ready] using h)]
    simp only [children, stageAll, valueOf, outcome?_mk, bind_pure_comp, child_zero, child_one,
      children_mk, bind_assoc, bind_map_left, pure_bind, List.headD_cons, List.tail_cons]

/-- A tree that has been staged is ready. -/
theorem ready_stage (e : Expr) (m : Memo) : Ready e (stage e m).value := by
  by_cases h : Ready e m
  · rwa [stage_of_ready h]
  · rw [stage_of_not_ready h]
    exact .inr (isSome_valueOf (not_ready_iff.1 h).1 _)

theorem ready_stageAll : ∀ (es : List Expr) (ms : List Memo) {i : Nat} {c : Expr},
    es[i]? = some c → Ready c ((stageAll es ms).value.getD i empty)
  | e :: rest, ms, 0, c, hc => by
    cases hc
    rw [stageAll]
    exact ready_stage e _
  | e :: rest, ms, i + 1, c, hc => by
    rw [stageAll]
    exact ready_stageAll rest ms.tail hc

/-! ## The walk -/

namespace Pending

/-- The node seen from above the `i`-th child. -/
def below (i : Nat) (p : Pending) : Pending := ⟨i :: p.path, p.expr, p.memo⟩

theorem children_below (i : Nat) (p : Pending) :
    (p.below i).children = p.children.map (below i) :=
  List.ext_getElem? fun j => by simp [children, below, Function.comp_def]

end Pending

theorem walk_of_ready {p : Pending} (h : Ready p.expr p.memo) (stack : List Pending) :
    walk (p :: stack) = walk stack := by
  rw [walk, if_pos h]

theorem walk_of_not_ready {p : Pending} (h : ¬ Ready p.expr p.memo) (stack : List Pending) :
    walk (p :: stack) = p.path :: walk (p.children.reverse ++ stack) := by
  rw [walk, if_neg h]

theorem walk_append (stack rest : List Pending) :
    walk (stack ++ rest) = walk stack ++ walk rest := by
  induction stack using walk.induct with
  | case1 => simp [walk]
  | case2 p stack h ih => rw [List.cons_append, walk_of_ready h, walk_of_ready h, ih]
  | case3 p stack h ih =>
    rw [List.cons_append, walk_of_not_ready h, walk_of_not_ready h, List.cons_append, ← ih,
      List.append_assoc]

theorem walk_eq_flatMap (stack : List Pending) : walk stack = stack.flatMap fun p => walk [p] := by
  induction stack with
  | nil => rw [walk, List.flatMap_nil]
  | cons p stack ih => rw [List.flatMap_cons, ← ih, ← walk_append, List.singleton_append]

theorem walk_below (i : Nat) (stack : List Pending) :
    walk (stack.map (.below i)) = (walk stack).map (i :: ·) := by
  induction stack using walk.induct with
  | case1 => simp [walk]
  | case2 p stack h ih =>
    have hbelow : Ready (p.below i).expr (p.below i).memo := h
    rw [List.map_cons, walk_of_ready h, walk_of_ready hbelow, ih]
  | case3 p stack h ih =>
    have hbelow : ¬ Ready (p.below i).expr (p.below i).memo := h
    rw [List.map_cons, walk_of_not_ready h, walk_of_not_ready hbelow, List.map_cons, ← ih,
      p.children_below, List.map_append, List.map_reverse]
    rfl

theorem stagingOrder_of_ready {e : Expr} {m : Memo} (h : Ready e m) : stagingOrder e m = [] := by
  rw [stagingOrder, walk_of_ready (p := ⟨[], e, m⟩) h, walk, List.reverse_nil]

/-- The nodes to stage below a node come child by child, and the node itself comes last. -/
theorem stagingOrder_of_not_ready {e : Expr} {m : Memo} (h : ¬ Ready e m) :
    stagingOrder e m =
      (e.children.mapIdx fun i c => (stagingOrder c (m.child i)).map (i :: ·)).flatten ++ [[]] := by
  have hchild (i : Nat) (c : Expr) :
      (walk [⟨[i], c, m.child i⟩]).reverse = (stagingOrder c (m.child i)).map (i :: ·) := by
    rw [stagingOrder, List.map_reverse]
    exact congrArg List.reverse (walk_below i [⟨[], c, m.child i⟩])
  rw [stagingOrder, walk_of_not_ready (p := ⟨[], e, m⟩) h, List.reverse_cons, List.append_nil,
    walk_eq_flatMap,
    List.reverse_flatMap, List.reverse_reverse, List.flatMap_def, Pending.children]
  congr 2
  refine List.ext_getElem? fun i => ?_
  simp [Function.comp_def, hchild]

/-! ## The loop, child by child -/

section

variable {value : Expr → Memo → Traced (Outcome × Memo)}

theorem settleAll_cons (e : Expr) (m : Memo) (path : List Nat) (rest : List (List Nat)) :
    settleAll value e m (path :: rest) =
      settle value e m path >>= fun m => settleAll value e m rest :=
  List.foldlM_cons

theorem settleAll_append (e : Expr) (m : Memo) (paths rest : List (List Nat)) :
    settleAll value e m (paths ++ rest) =
      settleAll value e m paths >>= fun m => settleAll value e m rest :=
  List.foldlM_append

theorem settleAll_singleton (e : Expr) (m : Memo) (path : List Nat) :
    settleAll value e m [path] = settle value e m path := by
  rw [settleAll_cons]
  exact bind_pure _

variable {e c : Expr} {i : Nat} (hc : e.children[i]? = some c)

include hc

theorem at?_cons (path : List Nat) : e.at? (i :: path) = c.at? path := by
  rw [at?, hc]
  rfl

theorem settle_below (m : Memo) (path : List Nat) :
    (settle value e m (i :: path)).Rel (Replaced i m) (settle value c (m.child i) path) := by
  rw [settle, settle, at?_cons hc]
  cases c.at? path with
  | none => exact .pure (.refl i m)
  | some node => exact ⟨replaced_replace .., by simp [under]⟩

/-- To the nodes below the `i`-th child the loop does what it would do for the child alone. -/
theorem settleAll_below (m : Memo) (paths : List (List Nat)) :
    (settleAll value e m (paths.map (i :: ·))).Rel (Replaced i m)
      (settleAll value c (m.child i) paths) := by
  induction paths generalizing m with
  | nil => exact .pure (.refl i m)
  | cons path rest ih =>
    rw [List.map_cons, settleAll_cons, settleAll_cons]
    refine (settle_below hc m path).bind fun {m' new} h => ?_
    have hrest := ih m'
    rw [h.child] at hrest
    exact hrest.mono h.trans

end

/-! ## Nodes that are due -/

/-- The node has to be staged, and its children are ready. -/
structure Due (e : Expr) (m : Memo) : Prop where
  not_ready : ¬ Ready e m
  children : ∀ i c, e.children[i]? = some c → Ready c (m.child i)

/-- There is a node under the path, and it is due. -/
def DueAt (e : Expr) (m : Memo) (path : List Nat) : Prop :=
  ∃ node, e.at? path = some node ∧ Due node (m.under path)

/-- The nodes are due when their turns come. -/
def DueAll (e : Expr) : Memo → List (List Nat) → Prop
  | _, [] => True
  | m, path :: rest =>
    DueAt e m path ∧ DueAll e (settle valueOf e m path).value rest

theorem dueAll_append {e : Expr} {m : Memo} {paths rest : List (List Nat)} :
    DueAll e m (paths ++ rest) ↔ DueAll e m paths ∧
      DueAll e (settleAll valueOf e m paths).value rest := by
  induction paths generalizing m with
  | nil => simp [DueAll, settleAll]
  | cons path paths ih =>
    rw [List.cons_append, DueAll, DueAll, ih, and_assoc, settleAll_cons, Traced.value_bind]

theorem DueAll.below {e c : Expr} {i : Nat} (hc : e.children[i]? = some c) {m : Memo}
    {paths : List (List Nat)} (h : DueAll c (m.child i) paths) :
    DueAll e m (paths.map (i :: ·)) := by
  induction paths generalizing m with
  | nil => trivial
  | cons path rest ih =>
    refine ⟨?_, ih ?_⟩
    · rw [DueAt, at?_cons hc]
      exact h.1
    · rw [(settle_below hc m path).value.child]
      exact h.2

/-! ## The loop and the recursion -/

/-- The second memo is the first with other ones in place of those from the `k`-th child on,
which say the same as those of the list. -/
structure Refilled (k : Nat) (m m' : Memo) (ms : List Memo) : Prop where
  outcome : m'.outcome? = m.outcome?
  before : ∀ i, i < k → m'.child i = m.child i
  child : ∀ i, Same (m'.child (k + i)) (ms.getD i empty)

theorem Refilled.cons {k : Nat} {m m' m'' x new : Memo} {ms : List Memo}
    (h : Replaced k m m' x) (hnew : Same x new) (hrest : Refilled (k + 1) m' m'' ms) :
    Refilled k m m'' (new :: ms) where
  outcome := hrest.outcome.trans h.outcome
  before i hi := (hrest.before i (by omega)).trans (h.other i (by omega))
  child
    | 0 => by
      rw [Nat.add_zero, hrest.before k (by omega), h.child]
      exact hnew
    | i + 1 => by
      rw [show k + (i + 1) = k + 1 + i by omega]
      exact hrest.child i

theorem Refilled.same {m m' : Memo} {ms : List Memo} (h : Refilled 0 m m' ms) :
    Same m' (.mk m.outcome? ms) :=
  .of_children h.outcome fun i => by
    have hchild := h.child i
    rwa [Nat.zero_add] at hchild

/-- The loop notes what `stage` notes and leaves the same cells, and its nodes are due. -/
def StagedInTurn (e : Expr) (m : Memo) : Prop :=
  (settleAll valueOf e m (stagingOrder e m)).Rel Same (stage e m) ∧
    DueAll e m (stagingOrder e m)

/-- What is to be staged below some children of a node, of which the first is the `k`-th. -/
def pathsFrom (k : Nat) (es : List Expr) (ms : List Memo) : List (List Nat) :=
  (es.mapIdx fun i c => (stagingOrder c (ms.getD i empty)).map ((k + i) :: ·)).flatten

theorem pathsFrom_cons (k : Nat) (c : Expr) (rest : List Expr) (ms : List Memo) :
    pathsFrom k (c :: rest) ms =
      (stagingOrder c (ms.headD empty)).map (k :: ·) ++ pathsFrom (k + 1) rest ms.tail := by
  simp only [pathsFrom, List.mapIdx_cons, List.flatten_cons, getD_zero, getD_succ, Nat.add_zero,
    Nat.add_right_comm k 1, Nat.add_assoc k]

/-- The loop over what is to be staged below the children from the `k`-th on does what
`stageAll` does, if it does for every one of them what `stage` does. -/
theorem stagedInTurn_children {e : Expr} {es : List Expr} {k : Nat} {m : Memo} {ms : List Memo}
    (hes : ∀ i, e.children[k + i]? = es[i]?) (hms : ∀ i, m.child (k + i) = ms.getD i empty)
    (h : ∀ c ∈ es, ∀ m, StagedInTurn c m) :
    (settleAll valueOf e m (pathsFrom k es ms)).Rel (Refilled k m)
        (stageAll es ms) ∧
      DueAll e m (pathsFrom k es ms) := by
  induction es generalizing k m ms with
  | nil =>
    rw [stageAll]
    exact ⟨.pure ⟨rfl, fun _ _ => rfl, fun i => hms i ▸ .refl _⟩, trivial⟩
  | cons c rest ih =>
    have hc : e.children[k]? = some c := hes 0
    have hhead : m.child k = ms.headD empty := (hms 0).trans (getD_zero ms)
    obtain ⟨hstaged, hdue⟩ := h c List.mem_cons_self (m.child k)
    have hfirst : (settleAll valueOf e m _).Rel
        (fun m' new => ∃ x, Replaced k m m' x ∧ Same x new) _ :=
      (settleAll_below hc m _).trans hstaged fun hreplaced hsame => ⟨_, hreplaced, hsame⟩
    -- the first child leaves the others as they were
    have hrest {m' x : Memo} (hreplaced : Replaced k m m' x) :
        (settleAll valueOf e m' (pathsFrom (k + 1) rest ms.tail)).Rel
            (Refilled (k + 1) m') (stageAll rest ms.tail) ∧
          DueAll e m' (pathsFrom (k + 1) rest ms.tail) := by
      refine ih (fun i => ?_) (fun i => ?_) fun c hc => h c (List.mem_cons_of_mem _ hc)
      · rw [Nat.add_right_comm]
        exact hes (i + 1)
      · rw [hreplaced.other _ (by omega), Nat.add_right_comm, ← getD_succ]
        exact hms (i + 1)
    rw [pathsFrom_cons, ← hhead, stageAll, ← hhead, settleAll_append, dueAll_append]
    refine ⟨hfirst.bind ?_, hdue.below hc, (hrest (settleAll_below hc m _).value).2⟩
    rintro m' new ⟨x, hreplaced, hsame⟩
    rw [bind_pure_comp]
    exact (hrest hreplaced).1.map_right fun hrefilled => .cons hreplaced hsame hrefilled

/-- **The work list stages the tree.**  The loop notes what `stage` notes and leaves the same
cells, and every node of its list is due when its turn comes. -/
theorem stagedInTurn (e : Expr) : ∀ m, StagedInTurn e m := by
  induction e using induction_children with
  | h e ih =>
    intro m
    by_cases hready : Ready e m
    · rw [StagedInTurn, stagingOrder_of_ready hready, stage_of_ready hready]
      exact ⟨.pure (.refl m), trivial⟩
    · have hempty := (not_ready_iff.1 hready).2
      obtain ⟨hchildren, hdue⟩ :
          (settleAll valueOf e m (pathsFrom 0 e.children m.children)).Rel (Refilled 0 m)
              (stageAll e.children m.children) ∧
            DueAll e m (pathsFrom 0 e.children m.children) := by
        refine stagedInTurn_children (fun i => ?_) (fun i => ?_) ih
        · rw [Nat.zero_add]
        · rw [Nat.zero_add]
          rfl
      have hpaths : stagingOrder e m = pathsFrom 0 e.children m.children ++ [[]] := by
        rw [stagingOrder_of_not_ready hready, pathsFrom]
        simp only [Nat.zero_add]
        rfl
      rw [StagedInTurn, hpaths, stage_of_not_ready hready, settleAll_append, dueAll_append]
      refine ⟨hchildren.bind fun {m' ms} h => ?_, hdue, ⟨e, rfl, ?_, ?_⟩, trivial⟩
      · rw [settleAll_singleton]
        have hsame := h.same
        rw [hempty] at hsame
        exact (valueOf_same e hsame).map fun h => h.2
      · rw [not_ready_iff] at hready ⊢
        exact ⟨hready.1, hchildren.value.outcome.trans hready.2⟩
      · intro i c hc
        have hchild := hchildren.value.child i
        rw [Nat.zero_add] at hchild
        exact (ready_stageAll e.children m.children hc).same hchild.symm

end Expr
end Reckoner

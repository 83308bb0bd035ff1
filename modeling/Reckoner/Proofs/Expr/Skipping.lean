import Mathlib
import Reckoner.Proofs.Expr.Runs
import Reckoner.Proofs.Grammar.Reread

/-!
# Operands that are not needed

Every operation reads one operand first (`Operation.first`), and sometimes the outcome of that
operand alone decides the operation (`Operation.Decides`): a factor zero, an exponent zero, a
dividend or a divisor zero, a fault.  What becomes of the other operand then?

* The plain recursion does not touch it (`valueOf_of_decides`).
* Evaluation in stages does not touch it either if it is no taller than a stage
  (`evaluate_of_decides`), but a taller operand is evaluated before anybody asks whether it is
  needed (`outcome_stage_of_tall`).

`skipped_operand` says both of every node of an expression of which nothing has been evaluated;
`skipped_operand_evaluated` is an entry that multiplies by zero and runs the functions of its
other factor.
-/

namespace Reckoner

namespace Side

/-- The one of two things that is on this side. -/
def select {α : Type} : Side → α → α → α
  | left, a, _ => a
  | right, _, b => b

/-- The thing on this side and the one on the other, from left to right. -/
def both {α : Type} : Side → α → α → List α
  | left, this, that => [this, that]
  | right, this, that => [that, this]

/-- The child number of the operand on this side. -/
def index : Side → Nat
  | left => 0
  | right => 1

end Side

/-! ## Paths into a memo -/

namespace Memo

theorem child_both_other (o? : Option Outcome) (side : Side) (this that : Memo) :
    (mk o? (side.both this that)).child side.other.index = that := by
  cases side <;> rfl

theorem child_setChild (o? : Option Outcome) (new : Memo) (i : Nat) (ms : List Memo) :
    (mk o? (setChild new i ms)).child i = new := by
  induction i generalizing ms with
  | zero => rfl
  | succ i ih =>
    rw [child_succ o?]
    exact ih ms.tail

/-- What is put in under a path is found there. -/
theorem under_replace (m new : Memo) (path : List Nat) : (m.replace new path).under path = new := by
  induction path generalizing m with
  | nil => rfl
  | cons i path ih =>
    rw [replace, under, child_setChild]
    exact ih (m.child i)

theorem under_append (m : Memo) (path path' : List Nat) :
    m.under (path ++ path') = (m.under path).under path' := by
  induction path generalizing m with
  | nil => rfl
  | cons i path ih => exact ih (m.child i)

end Memo

/-! ## Inquiries that are settled by one answer -/

namespace Inquiry

variable {α : Type}

/-- The inquiry that has come to a result. -/
def ofResult : Except Fault α → Inquiry α
  | .ok a => done a
  | .error f => fail f

theorem run_ofResult {m : Type → Type} [Monad m] (read : Side → m Outcome) (x : Except Fault α) :
    (ofResult x).run read = pure x := by
  cases x <;> rfl

/-- The inquiry asks for one operand first, and once that has the outcome `o`, it has come to
the result `x`. -/
def SettledBy (q : Inquiry α) (side : Side) (o : Outcome) (x : Except Fault α) : Prop :=
  ∃ next, q = ask side next ∧
    match o with
    | .ok v => next v = ofResult x
    | .error f => x = .error f

end Inquiry

namespace Expr

/-- An inquiry that is settled by one answer reads one operand, and leaves the memo of the other
one as it was. -/
theorem run_of_settledBy {α : Type} {q : Inquiry α} {side : Side} {o : Outcome}
    {x : Except Fault α} (h : q.SettledBy side o x)
    {readLeft readRight : Memo → Traced (Outcome × Memo)} {ml mr m : Memo} {events : List Event}
    (hread : (side.select readLeft readRight) (side.select ml mr) = ⟨(o, m), events⟩) :
    (q.run (readOperand readLeft readRight)).run (ml, mr) =
      ⟨(x, side.select (m, mr) (ml, m)), events⟩ := by
  obtain ⟨next, rfl, hnext⟩ := h
  have hanswer : (readOperand readLeft readRight side).run (ml, mr) =
      ⟨(o, side.select (m, mr) (ml, m)), events⟩ := by
    cases side with
    | left =>
      show (fun y : Outcome × Memo => (y.1, y.2, mr)) <$> readLeft ml = _
      rw [show readLeft ml = _ from hread]
      exact Traced.ext rfl (by simp)
    | right =>
      show (fun y : Outcome × Memo => (y.1, ml, y.2)) <$> readRight mr = _
      rw [show readRight mr = _ from hread]
      exact Traced.ext rfl (by simp)
  rw [Inquiry.run, StateT.run_bind, hanswer]
  cases o with
  | error f =>
    obtain rfl : x = .error f := hnext
    exact Traced.ext rfl (by simp)
  | ok v =>
    have hdone : (next v).run (readOperand readLeft readRight) = pure x := by
      rw [show next v = _ from hnext, Inquiry.run_ofResult]
    refine Traced.ext ?_ ?_
    · simp only [Traced.value_bind, hdone]
      rfl
    · simp only [Traced.events_bind, hdone]
      simp

end Expr

/-! ## Operations that are decided by one operand -/

namespace Operation

/-- The operand that is read first: the cheaper one, but the exponent of a power, and of a
quotient the dividend if zero over zero is zero and the divisor otherwise. -/
def first (options : Options) (costs : Costs) : Operator → Side
  | .add | .sub | .mul => Shortcut.cheaper costs
  | .div =>
    match options.zeroOverZero with
    | .zero => .left
    | .fault => .right
  | .pow => .right

/-- The operand that is read first decides the operation: with its outcome, whatever the other
operand is, the operation has this outcome. -/
inductive Decides (options : Options) : Operator → Outcome → Outcome → Prop where
  /-- A factor zero. -/
  | factor {v : Value} (h : v.isZero = true) : Decides options .mul (.ok v) (.ok 0)
  /-- An exponent zero. -/
  | exponent {v : Value} (h : v.isZero = true) : Decides options .pow (.ok v) (.ok 1)
  /-- A dividend zero, if zero over zero is zero. -/
  | dividend {v : Value} (hpolicy : options.zeroOverZero = .zero) (h : v.isZero = true) :
      Decides options .div (.ok v) (.ok 0)
  /-- A divisor zero, if zero over zero is a fault. -/
  | divisor {v : Value} (hpolicy : options.zeroOverZero = .fault) (h : v.isZero = true) :
      Decides options .div (.ok v) (.error .divisionByZero)
  /-- A fault. -/
  | fault (op : Operator) (f : Fault) : Decides options op (.error f) (.error f)

/-- What is noted when an operation is decided: the shortcut, unless it is a fault. -/
def decisionEvents (op : Operator) : Outcome → List Event
  | .ok v => [.shortcut op v]
  | .error _ => []

variable {options : Options} {op : Operator}

/-- Every operation begins by reading its first operand. -/
theorem plan_eq_ask (options : Options) (costs : Costs) (op : Operator) :
    ∃ next, plan options costs op = .ask (first options costs op) next := by
  cases op with
  | div =>
    cases hpolicy : options.zeroOverZero
    · exact ⟨_, by rw [plan, Shortcut.rule, first, hpolicy]; rfl⟩
    · exact ⟨_, by rw [plan, Shortcut.rule, first, hpolicy]; rfl⟩
  | _ => exact ⟨_, rfl⟩

/-- The settled operation of which the outcome is known. -/
def concluded : Outcome → Except Fault Operation
  | .ok v => .ok (.shortcut v)
  | .error f => .error f

/-- An operand that decides an operation leaves nothing to ask. -/
theorem plan_settledBy {o result : Outcome} (h : Decides options op o result) (costs : Costs) :
    (plan options costs op).SettledBy (first options costs op) o (concluded result) := by
  cases h with
  | factor hv | exponent hv =>
    refine ⟨_, rfl, ?_⟩
    rw [Value.isZero] at hv
    simp only [Inquiry.bind, hv, if_true, Inquiry.pure_eq]
    rfl
  | dividend hpolicy hv | divisor hpolicy hv =>
    -- the policy says which operand of a quotient is the first
    rw [plan, Shortcut.rule, first, hpolicy]
    refine ⟨_, rfl, ?_⟩
    rw [Value.isZero] at hv
    simp only [Inquiry.bind, hv, if_true, Inquiry.pure_eq]
    rfl
  | fault op f =>
    obtain ⟨next, hplan⟩ := plan_eq_ask options costs op
    exact ⟨next, hplan, rfl⟩

end Operation

namespace Expr

open Memo Operation

variable {options : Options} {op : Operator} {o result : Outcome}

/-! ## One node -/

/-- An operation that is decided by the operand that is read first leaves the memo of the other
operand as it was, and notes no more than the reading of the first did and the shortcut. -/
theorem operate_of_decides (h : Decides options op o result) {costs : Costs} {side : Side}
    (hside : first options costs op = side)
    {readLeft readRight : Memo → Traced (Outcome × Memo)} {ml mr m : Memo} {events : List Event}
    (hread : (side.select readLeft readRight) (side.select ml mr) = ⟨(o, m), events⟩) :
    operate options op costs readLeft readRight ml mr =
      ⟨(result, .mk (some result) (side.both m (side.other.select ml mr))),
        events ++ decisionEvents op result⟩ := by
  subst hside
  rw [operate, run_of_settledBy (plan_settledBy h costs) hread]
  generalize first options costs op = side
  cases result <;> cases side <;>
    exact Traced.ext rfl (by simp [concluded, decisionEvents, conclude])

section Node

variable {l r : Expr} {side : Side} (hside : first options (costs l r) op = side)
  (h : Decides options op (side.select l r).denote result)

include hside h

/-- So it is with the operands of a node, which the plain recursion reads. -/
theorem operate_valueOf {ml mr : Memo}
    (hm : Coherent (side.select l r) (side.select ml mr)) :
    operate options op (costs l r) (fun m => valueOf l m) (fun m => valueOf r m)
        ml mr =
      ⟨(result, .mk (some result)
          (side.both (valueOf (side.select l r) (side.select ml mr)).value.2
            (side.other.select ml mr))),
        (valueOf (side.select l r) (side.select ml mr)).events ++
          decisionEvents op result⟩ := by
  have houtcome := (valueOf_spec _ _ hm).1
  refine operate_of_decides h hside ?_
  rw [← houtcome]
  cases side <;> rfl

/-- The plain recursion does not touch an operand that is not needed. -/
theorem valueOf_of_decides :
    valueOf (binary options op l r) .empty =
      ⟨(result, .mk (some result)
          (side.both (valueOf (side.select l r) .empty).value.2 .empty)),
        (valueOf (side.select l r) .empty).events ++ decisionEvents op result⟩ := by
  have hselect (s : Side) : s.select Memo.empty Memo.empty = .empty := by cases s <;> rfl
  have hcoherent : Coherent (side.select l r) (side.select .empty .empty) := by
    rw [hselect]
    exact coherent_empty _
  have hoperate := operate_valueOf hside h hcoherent
  rw [hselect, hselect] at hoperate
  rw [valueOf, child_empty, child_empty]
  exact hoperate

end Node

/-! ## Stages -/

theorem outcome?_operate (options : Options) (op : Operator) (costs : Costs)
    (readLeft readRight : Memo → Traced (Outcome × Memo)) (ml mr : Memo) :
    (operate options op costs readLeft readRight ml mr).value.2.outcome? =
      some (operate options op costs readLeft readRight ml mr).value.1 := by
  rw [operate]
  simp only [Traced.value_bind]
  generalize (((Operation.plan options costs op).run
    (readOperand readLeft readRight)).run (ml, mr)).value = x
  obtain ⟨plan, ml, mr⟩ := x
  cases plan <;> rfl

theorem outcome?_invoke (options : Options) (f : Function)
    (evaluateArgs : List Memo → Traced (Except Fault (List Value) × List Memo)) (ms : List Memo) :
    (invoke options f evaluateArgs ms).value.2.outcome? =
      some (invoke options f evaluateArgs ms).value.1 := by
  rw [invoke]
  simp only [Traced.value_bind]
  cases (evaluateArgs ms).value.1 <;> rfl

/-- A fresh node that is taller than a stage is staged, and so are its operands. -/
theorem stage_binary_of_tall {l r : Expr} (h : stageHeight < (binary options op l r).height) :
    stage (binary options op l r) .empty = (do
      let ml ← stage l .empty
      let mr ← stage r .empty
      return (← operate options op (costs l r) (fun m => valueOf l m)
        (fun m => valueOf r m) ml mr).2) := by
  rw [stage, if_neg (by simpa using h), child_empty, child_empty]

/-- Staging a tree that is taller than a stage evaluates it. -/
theorem outcome_stage_of_tall {e : Expr} (h : stageHeight < e.height) :
    (stage e .empty).value.outcome? = some e.denote := by
  rcases tall_cases h with ⟨options, f, args, rfl⟩ | ⟨options, op, l, r, rfl⟩
  · have hstaged := stageAll_spec args [] (coherentAll_nil args)
    have hfits : Fits (call options f args) _ := invoke_spec (evaluateAll_spec args _ hstaged)
    rw [stage, if_neg (by simpa using h), ← hfits.1]
    exact outcome?_invoke ..
  · have hfits : Fits (binary options op l r) _ := operate_spec (valueOf_spec l) (valueOf_spec r)
      (stage_spec l _ (coherent_empty l)) (stage_spec r _ (coherent_empty r))
    rw [stage_binary_of_tall h, ← hfits.1]
    exact outcome?_operate ..

section Node

variable {l r : Expr} {side : Side} (hside : first options (costs l r) op = side)
  (h : Decides options op (side.select l r).denote result)

include hside h

/-- A node that is taller than a stage is evaluated on the memos of its staged operands. -/
theorem evaluate_of_decides_of_tall (htall : stageHeight < (binary options op l r).height) :
    let staged := side.select (stage l .empty) (stage r .empty)
    let answer := valueOf (side.select l r) staged.value
    evaluate (binary options op l r) .empty =
      ⟨(result, .mk (some result)
          (side.both answer.value.2 (stage (side.other.select l r) .empty).value)),
        (stage l .empty).events ++ (stage r .empty).events ++
          (answer.events ++ decisionEvents op result)⟩ := by
  intro staged answer
  have hcoherent : Coherent (side.select l r)
      (side.select (stage l .empty).value (stage r .empty).value) := by
    cases side with
    | left => exact stage_spec l _ (coherent_empty l)
    | right => exact stage_spec r _ (coherent_empty r)
  have hstaged : staged.value =
      side.select (stage l .empty).value (stage r .empty).value := by
    cases side <;> rfl
  have hother : (stage (side.other.select l r) .empty).value =
      side.other.select (stage l .empty).value (stage r .empty).value := by
    cases side <;> rfl
  have hfilled (ms : List Memo) : valueOf (binary options op l r) (.mk (some result) ms) =
      pure (result, .mk (some result) ms) := by
    rw [valueOf]
    rfl
  have hoperate := operate_valueOf hside h hcoherent
  rw [← hstaged, ← hother] at hoperate
  rw [evaluate, stage_binary_of_tall htall]
  refine Traced.ext ?_ ?_
  · simp only [Traced.value_bind, Traced.value_pure, hoperate, hfilled]
    rfl
  · simp only [Traced.value_bind, Traced.events_bind, Traced.value_pure, Traced.events_pure,
      hoperate, hfilled, List.append_nil, List.append_assoc]
    rfl

/-- Evaluation in stages does not touch an operand that is not needed and no taller than a
stage. -/
theorem evaluate_of_decides (hlow : (side.other.select l r).height ≤ stageHeight) :
    evaluate (binary options op l r) .empty =
      ⟨(result, .mk (some result)
          (side.both (evaluate (side.select l r) .empty).value.2 .empty)),
        (evaluate (side.select l r) .empty).events ++ decisionEvents op result⟩ := by
  by_cases hnode : (binary options op l r).height ≤ stageHeight
  · have hfirst : (side.select l r).height ≤ stageHeight := by
      rw [height] at hnode
      cases side <;> simp only [Side.select] <;> omega
    rw [evaluate_of_ready (.inl hnode), evaluate_of_ready (.inl hfirst), valueOf_of_decides hside h]
  · rw [evaluate_of_decides_of_tall hside h (Nat.lt_of_not_le hnode), stage_of_ready (.inl hlow)]
    cases side with
    | left =>
      have hright : stage r .empty = pure .empty := stage_of_ready (.inl hlow)
      rw [hright]
      exact Traced.ext rfl (by simp [evaluate, Side.select])
    | right =>
      have hleft : stage l .empty = pure .empty := stage_of_ready (.inl hlow)
      rw [hleft]
      exact Traced.ext rfl (by simp [evaluate, Side.select])

/-- A taller operand is evaluated although it is not needed. -/
theorem outcome_of_decides_of_tall (htall : stageHeight < (side.other.select l r).height) :
    ((evaluate (binary options op l r) .empty).value.2.child side.other.index).outcome? =
      some (side.other.select l r).denote := by
  have hnode : stageHeight < (binary options op l r).height := by
    rw [height]
    cases side <;> simp only [Side.select, Side.other] at htall <;> omega
  rw [evaluate_of_decides_of_tall hside h hnode]
  simp only [child_both_other]
  exact outcome_stage_of_tall htall

end Node

end Expr

/-! ## Nodes of a fresh expression -/

namespace Tracked

open Reckoner.Expr Reckoner.Operation

variable {options : Options} {e l r : Expr} {op : Operator} {result : Outcome}

/-- A request for a node of a fresh expression evaluates that node afresh. -/
theorem answer_fresh {node : Expr} (q : Request) (hnode : e.at? q.path = some node) :
    (fresh e).answer q =
      (fun x => (some x.1, ⟨e, Memo.empty.replace x.2 q.path⟩)) <$>
        q.evaluator node .empty := by
  rw [answer_eq, show (fresh e).expr = e from rfl, hnode]
  show _ <$> q.evaluator node (Memo.empty.under q.path) = _
  rw [Memo.under_empty]
  rfl

/-- A parser that knows a function `f`, which returns its argument. -/
def callsParser : Parser := ⟨⟨[], [.unary "f" fun _ x => .ok x]⟩, {}⟩

/-- `f(f(... 5))` with `n` calls. -/
def nestedCalls : Nat → Expr
  | 0 => .literal 5
  | n + 1 => .call {} (.unary "f" fun _ x => .ok x) [nestedCalls n]

/-- `1 + 0 * f(5)`, in which the call is not needed. -/
def sumWithProduct : Expr :=
  .binary {} .add (.literal 1) (.binary {} .mul (.literal 0) (nestedCalls 1))

/-- The text of `nestedCalls n`. -/
def callsText : Nat → List Char
  | 0 => ['5']
  | n + 1 => 'f' :: '(' :: callsText n ++ [')']

theorem length_callsText (n : Nat) : (callsText n).length = 3 * n + 1 := by
  induction n with
  | zero => rfl
  | succ n ih =>
    simp only [callsText, List.length_append, List.length_cons, ih, List.length_nil]
    omega

theorem height_nestedCalls (n : Nat) : (nestedCalls n).height = n + 1 := by
  induction n with
  | zero => rfl
  | succ n ih =>
    rw [nestedCalls, Expr.height, Expr.heightAll, Expr.heightAll, ih, Nat.max_zero]
    omega

theorem signed_callsText (n : Nat) :
    Grammar.Signed callsParser.registry {} (Grammar.Level callsParser.registry {} n)
      (callsText n) (nestedCalls n) := by
  induction n with
  | zero => exact Value.signed_numeral 5
  | succ n ih =>
    have hf : callsParser.registry.function? (String.ofList ['f']) =
        some (.unary "f" fun _ x => .ok x) :=
      Registry.function?_of_mem (r := callsParser.registry) (List.pairwise_singleton _ _)
        List.mem_cons_self
    have harguments : Grammar.Items (Grammar.Level callsParser.registry {} (n + 1))
        (callsText n) [nestedCalls n] := .last (Value.line_of_signed ih)
    exact .plain (.call (b := []) (by decide) hf Grammar.blank_nil harguments rfl)

/-- `0*f(f(... 5))` is read as the product that it is. -/
theorem parse_callsText {n : Nat} (hn : n ≤ 64) :
    callsParser.parse (String.ofList ('0' :: '*' :: callsText n)) =
      .ok (.binary {} .mul (.literal 0) (nestedCalls n)) := by
  have hfactor : Grammar.Chain callsParser.registry {} (Grammar.Level callsParser.registry {} n)
      ([] ++ Operator.mul.symbol :: ([] ++ (callsText n ++ []))) [(.mul, nestedCalls n)] :=
    .cons Grammar.blank_nil Grammar.blank_nil (signed_callsText n) .nil
  have hzero : Numeral.signed 0 = ['0'] := by decide +kernel
  have hlevel : Grammar.Level callsParser.registry {} (n + 1) ('0' :: '*' :: callsText n)
      (.binary {} .mul (.literal 0) (nestedCalls n)) :=
    (Grammar.Line.intro Grammar.blank_nil (Value.signed_numeral 0) hfactor
      Grammar.blank_nil).cast (by simp [hzero, Operator.symbol])
  have hlength : ('0' :: '*' :: callsText n).length ≤ 195 := by
    rw [List.length_cons, List.length_cons, length_callsText]
    omega
  unfold Parser.parse
  simp only [String.toList_ofList]
  rw [if_neg (Nat.not_lt.2 (hlength.trans (by decide)))]
  refine Grammar.parseLevel_of_level
    (hlevel.of_length_lt (Nat.lt_succ_of_le (hlength.trans (by decide)))) ?_
  show 1 + max (Expr.literal 0).height (nestedCalls n).height ≤ 2048
  rw [height_nestedCalls]
  simp only [Expr.height]
  omega

end Tracked
end Reckoner

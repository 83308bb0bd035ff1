import Mathlib
import Reckoner.Expr.Evaluation

/-!
# Memos stay coherent

A memo is coherent if every cell that is filled holds the outcome that the plain
recursion `Expr.denote` gives for its node.  Evaluation keeps this invariant and
answers with that outcome, whichever of the two evaluators runs and whatever has
been evaluated before:

* `valueOf_spec` for the plain recursion on the memo;
* `stage_spec` for the evaluation from the bottom up;
* `evaluate_spec` for the two together.

The empty memo of a fresh expression is coherent (`coherent_empty`).
-/

namespace Reckoner

namespace Memo

mutual

/-- Every filled cell of the memo holds the outcome of its node. -/
def Coherent : Expr → Memo → Prop
  | .literal _, _ | .constant _ _, _ => True
  | .call options f args, m =>
    (∀ o, m.outcome? = some o → o = (Expr.call options f args).denote) ∧
      CoherentAll args m.children
  | .binary options op l r, m =>
    (∀ o, m.outcome? = some o → o = (Expr.binary options op l r).denote) ∧
      Coherent l (m.child 0) ∧ Coherent r (m.child 1)

/-- The same for a list of expressions and their memos. -/
def CoherentAll : List Expr → List Memo → Prop
  | [], _ => True
  | e :: rest, ms => Coherent e (ms.headD empty) ∧ CoherentAll rest ms.tail

end

mutual

theorem coherent_empty : ∀ e : Expr, Coherent e empty
  | .literal _ => trivial
  | .constant _ _ => trivial
  | .call options f args => by
    rw [Coherent]
    exact ⟨by simp, coherentAll_nil args⟩
  | .binary options op l r => by
    rw [Coherent, child_empty, child_empty]
    exact ⟨by simp, coherent_empty l, coherent_empty r⟩

theorem coherentAll_nil : ∀ es : List Expr, CoherentAll es []
  | [] => trivial
  | e :: rest => by
    rw [CoherentAll]
    exact ⟨coherent_empty e, coherentAll_nil rest⟩

end

end Memo

namespace Expr

open Memo

/-! ## One node -/

/-- On the memos with property `C` a reader answers with the outcome `o` and leaves a
memo with the same property. -/
def Answers (read : Memo → Traced (Outcome × Memo)) (C : Memo → Prop) (o : Outcome) : Prop :=
  ∀ m, C m → (read m).value.1 = o ∧ C (read m).value.2

section

variable {options : Options} {readLeft readRight : Memo → Traced (Outcome × Memo)}
variable {Cl Cr : Memo → Prop} {ol or : Outcome}

/-- Answering the questions of an inquiry by readers comes to answering them by the
outcomes, and spoils neither memo. -/
theorem run_readOperand (hl : Answers readLeft Cl ol) (hr : Answers readRight Cr or) {α : Type}
    (q : Inquiry α) {ml mr : Memo} (hml : Cl ml) (hmr : Cr mr) :
    (((q.run (readOperand readLeft readRight)).run (ml, mr)).value.1 =
        q.run (m := Id) (fun | .left => ol | .right => or)) ∧
      Cl ((q.run (readOperand readLeft readRight)).run (ml, mr)).value.2.1 ∧
      Cr ((q.run (readOperand readLeft readRight)).run (ml, mr)).value.2.2 := by
  induction q generalizing ml mr with
  | done a => exact ⟨rfl, hml, hmr⟩
  | fail f => exact ⟨rfl, hml, hmr⟩
  | ask side next ih =>
    cases side with
    | left =>
      obtain ⟨hvalue, hmemo⟩ := hl ml hml
      have hread : ((readOperand readLeft readRight .left).run (ml, mr)).value =
          (ol, (readLeft ml).value.2, mr) := by
        rw [← hvalue]
        rfl
      rw [Inquiry.run, Inquiry.run, StateT.run_bind]
      simp only [Traced.value_bind, hread]
      cases ol with
      | ok v => exact ih v hmemo hmr
      | error f => exact ⟨rfl, hmemo, hmr⟩
    | right =>
      obtain ⟨hvalue, hmemo⟩ := hr mr hmr
      have hread : ((readOperand readLeft readRight .right).run (ml, mr)).value =
          (or, ml, (readRight mr).value.2) := by
        rw [← hvalue]
        rfl
      rw [Inquiry.run, Inquiry.run, StateT.run_bind]
      simp only [Traced.value_bind, hread]
      cases or with
      | ok v => exact ih v hml hmemo
      | error f => exact ⟨rfl, hml, hmemo⟩

end

/-- An answer that fits a node: the outcome of the node and a coherent memo. -/
def Fits (e : Expr) (x : Outcome × Memo) : Prop :=
  x.1 = e.denote ∧ Coherent e x.2

variable {options : Options}

/-- An operation answers with its outcome, if its operands do. -/
theorem operate_spec {op : Operator} {l r : Expr}
    {readLeft readRight : Memo → Traced (Outcome × Memo)}
    (hl : Answers readLeft (Coherent l) l.denote)
    (hr : Answers readRight (Coherent r) r.denote) {ml mr : Memo}
    (hml : Coherent l ml) (hmr : Coherent r mr) :
    Fits (binary options op l r)
      (operate options op (costs l r) readLeft readRight ml mr).value := by
  obtain ⟨hplan, hml', hmr'⟩ :=
    run_readOperand hl hr (Operation.plan options (costs l r) op) hml hmr
  generalize hrun : (((Operation.plan options (costs l r) op).run
    (readOperand readLeft readRight)).run (ml, mr)).value = result at hplan hml' hmr'
  obtain ⟨plan, ml', mr'⟩ := result
  have hresult : (operate options op (costs l r) readLeft readRight ml mr).value =
      ((binary options op l r).denote,
        .mk (some (binary options op l r).denote) [ml', mr']) := by
    rw [operate, denote]
    simp only [Traced.value_bind, hrun]
    generalize Inquiry.run (m := Id) _ (Operation.plan options (costs l r) op) = denoted
      at hplan ⊢
    obtain rfl : plan = denoted := hplan
    cases plan <;> rfl
  rw [hresult]
  refine ⟨rfl, ?_⟩
  rw [Coherent]
  exact ⟨fun o ho => (Option.some.inj ho).symm, hml', hmr'⟩

/-- A call answers with its outcome, if its arguments do. -/
theorem invoke_spec {f : Function} {args : List Expr}
    {evaluateArgs : List Memo → Traced (Except Fault (List Value) × List Memo)} {ms : List Memo}
    (hargs : (evaluateArgs ms).value.1 = denoteAll args ∧
      CoherentAll args (evaluateArgs ms).value.2) :
    Fits (call options f args) (invoke options f evaluateArgs ms).value := by
  obtain ⟨hvalues, hms⟩ := hargs
  have hresult : (invoke options f evaluateArgs ms).value =
      ((call options f args).denote,
        .mk (some (call options f args).denote) (evaluateArgs ms).value.2) := by
    rw [invoke, denote]
    simp only [Traced.value_bind]
    rw [hvalues]
    cases denoteAll args <;> rfl
  rw [hresult]
  refine ⟨rfl, ?_⟩
  rw [Coherent]
  exact ⟨fun o ho => (Option.some.inj ho).symm, hms⟩

/-! ## Trees -/

mutual

/-- The plain recursion on a coherent memo gives the outcome of the node and keeps the
memo coherent. -/
theorem valueOf_spec : ∀ (e : Expr) (m : Memo), Coherent e m →
    Fits e (valueOf e m).value
  | literal v, m, h => by
    rw [valueOf]
    exact ⟨by rw [denote]; rfl, h⟩
  | constant name v, m, h => by
    rw [valueOf]
    exact ⟨by rw [denote]; rfl, h⟩
  | call options f args, m, h => by
    rw [valueOf]
    split
    · rename_i o ho
      rw [Coherent] at h
      exact ⟨h.1 o ho, by rw [Coherent]; exact h⟩
    · rw [Coherent] at h
      exact invoke_spec (evaluateAll_spec args m.children h.2)
  | binary options op l r, m, h => by
    rw [valueOf]
    split
    · rename_i o ho
      rw [Coherent] at h
      exact ⟨h.1 o ho, by rw [Coherent]; exact h⟩
    · rw [Coherent] at h
      exact operate_spec (valueOf_spec l) (valueOf_spec r) h.2.1 h.2.2

/-- Staging fills cells and keeps the memo coherent. -/
theorem stage_spec : ∀ (e : Expr) (m : Memo), Coherent e m →
    Coherent e (stage e m).value
  | literal v, m, h => by
    rw [stage]
    exact h
  | constant name v, m, h => by
    rw [stage]
    exact h
  | call options f args, m, h => by
    rw [stage]
    split
    · exact h
    · rw [Coherent] at h
      exact (invoke_spec (evaluateAll_spec args _ (stageAll_spec args m.children h.2))).2
  | binary options op l r, m, h => by
    rw [stage]
    split
    · exact h
    · rw [Coherent] at h
      exact (operate_spec (valueOf_spec l) (valueOf_spec r) (stage_spec l _ h.2.1)
        (stage_spec r _ h.2.2)).2

theorem evaluateAll_spec : ∀ (es : List Expr) (ms : List Memo), CoherentAll es ms →
    (evaluateAll es ms).value.1 = denoteAll es ∧
      CoherentAll es (evaluateAll es ms).value.2
  | [], ms, h => by
    rw [evaluateAll, denoteAll]
    exact ⟨rfl, h⟩
  | e :: rest, ms, h => by
    rw [CoherentAll] at h
    obtain ⟨houtcome, hm⟩ := valueOf_spec e _ (stage_spec e _ h.1)
    obtain ⟨hvalues, hms⟩ := evaluateAll_spec rest _ h.2
    rw [evaluateAll, denoteAll]
    simp only [Traced.value_bind]
    rw [houtcome]
    cases denote e with
    | error f => exact ⟨rfl, by rw [CoherentAll]; exact ⟨hm, h.2⟩⟩
    | ok v =>
      simp only [Traced.value_bind]
      rw [hvalues]
      exact ⟨rfl, by rw [CoherentAll]; exact ⟨hm, hms⟩⟩

theorem stageAll_spec : ∀ (es : List Expr) (ms : List Memo), CoherentAll es ms →
    CoherentAll es (stageAll es ms).value
  | [], ms, h => by
    rw [stageAll]
    exact h
  | e :: rest, ms, h => by
    rw [CoherentAll] at h
    rw [stageAll, CoherentAll]
    exact ⟨stage_spec e _ h.1, stageAll_spec rest _ h.2⟩

end

/-- Evaluation in stages gives the outcome of the expression, whatever has been
evaluated before. -/
theorem evaluate_spec (e : Expr) (m : Memo) (h : Coherent e m) :
    Fits e (evaluate e m).value :=
  valueOf_spec e _ (stage_spec e m h)

theorem value_outcome (e : Expr) : e.outcome.value = e.denote :=
  (evaluate_spec e .empty (coherent_empty e)).1

end Expr
end Reckoner

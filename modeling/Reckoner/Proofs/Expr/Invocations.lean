import Mathlib
import Reckoner.Proofs.Expr.Coherence

/-!
# Cells are written once, and functions run once

Evaluation only adds to a memo: a cell that is filled keeps its outcome, and the memo of a
leaf is not touched (`Memo.Grows`).  Every call that is noted on the way is paid for by a
cell: what is noted between two states of a memo is one invocation of each call node whose
cell was filled in between (`Memo.callsMade`, `Memo.Advances`).  The two travel together
through both evaluators: `valueOf_advances`, `stage_advances`, `evaluate_advances`.
-/

namespace Reckoner

/-! ## Counting calls -/

/-- Whether the event is that a function of this name was run. -/
def Event.isCallOf (name : String) : Event → Bool
  | .called function => function == name
  | _ => false

namespace Traced

variable {α β : Type}

/-- How many functions of this name were run. -/
def calls (name : String) (t : Traced α) : Nat := t.events.countP (Event.isCallOf name)

@[simp] theorem calls_pure (name : String) (a : α) : (pure a : Traced α).calls name = 0 := rfl

@[simp] theorem calls_bind (name : String) (x : Traced α) (f : α → Traced β) :
    (x >>= f).calls name = x.calls name + (f x.value).calls name :=
  List.countP_append

@[simp] theorem calls_map (name : String) (f : α → β) (x : Traced α) :
    (f <$> x).calls name = x.calls name := by
  rw [calls, events_map, calls]

end Traced

/-- Operators run no functions. -/
theorem Arithmetic.calls_computeTraced (options : Options) (op : Operator) (a b : Value)
    (name : String) : (computeTraced options op a b).calls name = 0 := by
  have hperiodic (o : Outcome) :
      (⟨o, periodicEvents op a b o⟩ : Traced Outcome).calls name = 0 := by
    unfold Traced.calls periodicEvents
    split
    · split <;> rfl
    · rfl
  have hpower : (powerTraced options a b).calls name = 0 := by
    unfold powerTraced
    split
    · rename_i method hmethod
      cases method <;> rfl
    · rfl
  unfold computeTraced
  cases op with
  | pow => simp only [Traced.calls_bind, hpower, hperiodic]
  | _ => simp only [Traced.calls_bind, Traced.calls_pure, hperiodic]

theorem Operation.calls_conclude (options : Options) (op : Operator) (operation : Operation)
    (name : String) : (operation.conclude options op).calls name = 0 := by
  cases operation with
  | shortcut v => rfl
  | full a b => exact Arithmetic.calls_computeTraced options op a b name

/-- How many functions of this name are run by one invocation of a call node, with the values
of its arguments: none if an argument has no value. -/
def Expr.invocation (options : Options) (name : String) (f : Function) (args : List Expr) : Nat :=
  match denoteAll args with
  | .ok values => (f.call options values).calls name
  | .error _ => 0

namespace Memo

/-! ## Memos grow -/

mutual

/-- The second memo has every outcome that the first one has, and the same memos at the
leaves. -/
def Grows : Expr → Memo → Memo → Prop
  | .literal _, m, m' | .constant _ _, m, m' => m' = m
  | .call _ _ args, m, m' =>
    (∀ o, m.outcome? = some o → m'.outcome? = some o) ∧ GrowsAll args m.children m'.children
  | .binary _ _ l r, m, m' =>
    (∀ o, m.outcome? = some o → m'.outcome? = some o) ∧
      Grows l (m.child 0) (m'.child 0) ∧ Grows r (m.child 1) (m'.child 1)

/-- The same for a list of expressions and their memos. -/
def GrowsAll : List Expr → List Memo → List Memo → Prop
  | [], _, _ => True
  | e :: rest, ms, ms' =>
    Grows e (ms.headD empty) (ms'.headD empty) ∧ GrowsAll rest ms.tail ms'.tail

end

mutual

theorem Grows.refl : ∀ (e : Expr) (m : Memo), Grows e m m
  | .literal _, _ => rfl
  | .constant _ _, _ => rfl
  | .call _ _ args, m => by
    rw [Grows]
    exact ⟨fun _ h => h, GrowsAll.refl args m.children⟩
  | .binary _ _ l r, m => by
    rw [Grows]
    exact ⟨fun _ h => h, Grows.refl l _, Grows.refl r _⟩

theorem GrowsAll.refl : ∀ (es : List Expr) (ms : List Memo), GrowsAll es ms ms
  | [], _ => trivial
  | e :: rest, ms => by
    rw [GrowsAll]
    exact ⟨Grows.refl e _, GrowsAll.refl rest _⟩

end

mutual

theorem Grows.trans : ∀ {e : Expr} {a b c : Memo}, Grows e a b → Grows e b c → Grows e a c
  | .literal _, _, _, _, hab, hbc => Eq.trans hbc hab
  | .constant _ _, _, _, _, hab, hbc => Eq.trans hbc hab
  | .call _ _ args, a, b, c, hab, hbc => by
    rw [Grows] at *
    exact ⟨fun o h => hbc.1 o (hab.1 o h), hab.2.trans hbc.2⟩
  | .binary _ _ l r, a, b, c, hab, hbc => by
    rw [Grows] at *
    exact ⟨fun o h => hbc.1 o (hab.1 o h), hab.2.1.trans hbc.2.1, hab.2.2.trans hbc.2.2⟩

theorem GrowsAll.trans : ∀ {es : List Expr} {as bs cs : List Memo},
    GrowsAll es as bs → GrowsAll es bs cs → GrowsAll es as cs
  | [], _, _, _, _, _ => trivial
  | e :: rest, as, bs, cs, hab, hbc => by
    rw [GrowsAll] at *
    exact ⟨hab.1.trans hbc.1, hab.2.trans hbc.2⟩

end

/-! ## Calls are paid for by cells -/

mutual

/-- How many functions of this name have been run if each call node whose cell is filled has
been invoked once. -/
def callsMade (name : String) : Expr → Memo → Nat
  | .literal _, _ | .constant _ _, _ => 0
  | .call options f args, m =>
    (if m.outcome?.isSome then Expr.invocation options name f args else 0) +
      callsMadeAll name args m.children
  | .binary _ _ l r, m =>
    callsMade name l (m.child 0) + callsMade name r (m.child 1)

/-- The same for a list of expressions and their memos. -/
def callsMadeAll (name : String) : List Expr → List Memo → Nat
  | [], _ => 0
  | e :: rest, ms =>
    callsMade name e (ms.headD empty) + callsMadeAll name rest ms.tail

end

mutual

theorem callsMade_empty (name : String) :
    ∀ e : Expr, callsMade name e empty = 0
  | .literal _ => rfl
  | .constant _ _ => rfl
  | .call options f args => by
    rw [callsMade, children_empty, callsMadeAll_nil name args]
    rfl
  | .binary _ _ l r => by
    rw [callsMade, child_empty, child_empty, callsMade_empty name l,
      callsMade_empty name r]

theorem callsMadeAll_nil (name : String) :
    ∀ es : List Expr, callsMadeAll name es [] = 0
  | [] => rfl
  | e :: rest => by
    show callsMade name e empty + callsMadeAll name rest [] = 0
    rw [callsMade_empty name e, callsMadeAll_nil name rest]

end

/-- From the first memo to the second, which has grown from it, `n` functions of this name
were run: one invocation of each call node whose cell was filled. -/
structure Advances (name : String) (e : Expr) (m m' : Memo) (n : Nat) :
    Prop where
  grows : Grows e m m'
  calls : callsMade name e m + n = callsMade name e m'

/-- The same for a list of expressions and their memos. -/
structure AdvancesAll (name : String) (es : List Expr) (ms ms' : List Memo)
    (n : Nat) : Prop where
  grows : GrowsAll es ms ms'
  calls : callsMadeAll name es ms + n = callsMadeAll name es ms'

variable {options : Options} {name : String}

theorem Advances.refl (e : Expr) (m : Memo) : Advances name e m m 0 :=
  ⟨.refl e m, rfl⟩

theorem AdvancesAll.refl (es : List Expr) (ms : List Memo) :
    AdvancesAll name es ms ms 0 :=
  ⟨.refl es ms, rfl⟩

theorem Advances.trans {e : Expr} {a b c : Memo} {k n : Nat}
    (hab : Advances name e a b k) (hbc : Advances name e b c n) :
    Advances name e a c (k + n) :=
  ⟨hab.grows.trans hbc.grows, by rw [← hbc.calls, ← hab.calls, Nat.add_assoc]⟩

theorem AdvancesAll.trans {es : List Expr} {as bs cs : List Memo} {k n : Nat}
    (hab : AdvancesAll name es as bs k) (hbc : AdvancesAll name es bs cs n) :
    AdvancesAll name es as cs (k + n) :=
  ⟨hab.grows.trans hbc.grows, by rw [← hbc.calls, ← hab.calls, Nat.add_assoc]⟩

theorem AdvancesAll.cons {e : Expr} {rest : List Expr} {m : Memo} {ms ms' : List Memo}
    {k n : Nat} (h : Advances name e (ms.headD empty) m k)
    (hrest : AdvancesAll name rest ms.tail ms' n) :
    AdvancesAll name (e :: rest) ms (m :: ms') (k + n) := by
  constructor
  · rw [GrowsAll]
    exact ⟨h.grows, hrest.grows⟩
  · have hhead := h.calls
    have htail := hrest.calls
    rw [callsMadeAll, callsMadeAll]
    show _ = callsMade name e m + callsMadeAll name rest ms'
    omega

/-- A binary node runs nothing itself. -/
theorem Advances.binary {op : Operator} {l r : Expr} {m ml mr : Memo} {k n : Nat}
    (hl : Advances name l (m.child 0) ml k)
    (hr : Advances name r (m.child 1) mr n) {o? : Option Outcome}
    (ho : ∀ o, m.outcome? = some o → o? = some o) :
    Advances name (.binary options op l r) m (.mk o? [ml, mr]) (k + n) := by
  constructor
  · rw [Grows]
    exact ⟨ho, hl.grows, hr.grows⟩
  · have hleft := hl.calls
    have hright := hr.calls
    rw [callsMade, callsMade]
    show _ = callsMade name l ml + callsMade name r mr
    omega

/-- Filling the cell of a call node pays for one invocation of its function. -/
theorem AdvancesAll.fill {args : List Expr} {m : Memo} {ms : List Memo} {n : Nat}
    (h : AdvancesAll name args m.children ms n) (hempty : m.outcome? = none)
    (options : Options) (f : Function) (o : Outcome) :
    Advances name (.call options f args) m (.mk (some o) ms)
      (n + Expr.invocation options name f args) := by
  constructor
  · rw [Grows, hempty]
    exact ⟨fun o ho => (nomatch ho), h.grows⟩
  · have hargs := h.calls
    rw [callsMade, callsMade, hempty]
    simp only [Option.isSome_none, Bool.false_eq_true, if_false, outcome?_mk, Option.isSome_some,
      if_true, children_mk]
    omega

end Memo

namespace Expr

open Memo

variable {options : Options} {name : String}

/-! ## One node -/

/-- Reading by `read` advances the memo of `e` by what is noted. -/
def Accounts (name : String) (e : Expr)
    (read : Memo → Traced (Outcome × Memo)) : Prop :=
  ∀ m, Coherent e m →
    Advances name e m (read m).value.2 ((read m).calls name)

section

variable {l r : Expr} {readLeft readRight : Memo → Traced (Outcome × Memo)}
  (hl : Answers readLeft (Coherent l) l.denote)
  (hr : Answers readRight (Coherent r) r.denote)
  (hleft : Accounts name l readLeft) (hright : Accounts name r readRight)

include hl hr hleft hright

/-- The calls that an inquiry notes are those of the operands it asks for. -/
theorem run_advances {α : Type} (q : Inquiry α) {ml mr : Memo} (hml : Coherent l ml)
    (hmr : Coherent r mr) :
    ∃ k n, ((q.run (readOperand readLeft readRight)).run (ml, mr)).calls name = k + n ∧
      Advances name l ml
        ((q.run (readOperand readLeft readRight)).run (ml, mr)).value.2.1 k ∧
      Advances name r mr
        ((q.run (readOperand readLeft readRight)).run (ml, mr)).value.2.2 n := by
  induction q generalizing ml mr with
  | done a => exact ⟨0, 0, rfl, .refl l ml, .refl r mr⟩
  | fail f => exact ⟨0, 0, rfl, .refl l ml, .refl r mr⟩
  | ask side next ih =>
    cases side with
    | left =>
      obtain ⟨hvalue, hmemo⟩ := hl ml hml
      have hadvance := hleft ml hml
      have hread : ((readOperand readLeft readRight .left).run (ml, mr)).value =
          (l.denote, (readLeft ml).value.2, mr) := by
        rw [← hvalue]
        rfl
      have hcalls : ((readOperand readLeft readRight .left).run (ml, mr)).calls name =
          (readLeft ml).calls name := Traced.calls_map ..
      rw [Inquiry.run, StateT.run_bind]
      simp only [Traced.value_bind, Traced.calls_bind, hread, hcalls]
      cases l.denote with
      | ok v =>
        obtain ⟨k, n, htotal, hk, hn⟩ := ih v hmemo hmr
        refine ⟨_ + k, n, ?_, hadvance.trans hk, hn⟩
        rw [Nat.add_assoc, ← htotal]
      | error f => exact ⟨_, 0, rfl, hadvance, .refl r mr⟩
    | right =>
      obtain ⟨hvalue, hmemo⟩ := hr mr hmr
      have hadvance := hright mr hmr
      have hread : ((readOperand readLeft readRight .right).run (ml, mr)).value =
          (r.denote, ml, (readRight mr).value.2) := by
        rw [← hvalue]
        rfl
      have hcalls : ((readOperand readLeft readRight .right).run (ml, mr)).calls name =
          (readRight mr).calls name := Traced.calls_map ..
      rw [Inquiry.run, StateT.run_bind]
      simp only [Traced.value_bind, Traced.calls_bind, hread, hcalls]
      cases r.denote with
      | ok v =>
        obtain ⟨k, n, htotal, hk, hn⟩ := ih v hml hmemo
        refine ⟨k, _ + n, ?_, hk, hadvance.trans hn⟩
        rw [Nat.add_left_comm, ← htotal]
      | error f => exact ⟨0, _, (Nat.zero_add _).symm, .refl l ml, hadvance⟩

/-- An operation whose cell is empty advances by what its operands note. -/
theorem operate_advances (options : Options) (op : Operator) {m ml mr : Memo} {k n : Nat}
    (hempty : m.outcome? = none) (hml : Coherent l ml) (hmr : Coherent r mr)
    (hk : Advances name l (m.child 0) ml k)
    (hn : Advances name r (m.child 1) mr n) :
    Advances name (binary options op l r) m
      (operate options op (costs l r) readLeft readRight ml mr).value.2
      (k + n + (operate options op (costs l r) readLeft readRight ml mr).calls name) := by
  obtain ⟨k', n', htotal, hk', hn'⟩ :=
    run_advances hl hr hleft hright (Operation.plan options (costs l r) op) hml hmr
  have hvacuous (o : Outcome) (o? : Option Outcome) (h : m.outcome? = some o) : o? = some o := by
    rw [hempty] at h
    cases h
  rw [operate]
  simp only [Traced.value_bind, Traced.calls_bind]
  rw [htotal]
  generalize (((Operation.plan options (costs l r) op).run
    (readOperand readLeft readRight)).run (ml, mr)).value = result at hk' hn' ⊢
  obtain ⟨plan, ml', mr'⟩ := result
  have hadvance (o : Outcome) : Advances name (binary options op l r) m (.mk (some o) [ml', mr'])
      (k + k' + (n + n')) :=
    (hk.trans hk').binary (hn.trans hn') fun o h => hvacuous o _ h
  have hsum : k + k' + (n + n') = k + n + (k' + n') := by omega
  rw [hsum] at hadvance
  cases plan with
  | ok operation =>
    simp only [Traced.value_bind, Traced.calls_bind, Operation.calls_conclude]
    exact hadvance (operation.conclude options op).value
  | error f => exact hadvance (.error f)

end

/-- A call whose cell is empty advances by what its arguments note and one invocation. -/
theorem invoke_advances (options : Options) (f : Function) {args : List Expr} {m : Memo}
    {ms : List Memo} {n : Nat}
    {evaluateArgs : List Memo → Traced (Except Fault (List Value) × List Memo)}
    (hempty : m.outcome? = none) (hms : AdvancesAll name args m.children ms n)
    (hvalues : (evaluateArgs ms).value.1 = denoteAll args)
    (hargs : AdvancesAll name args ms (evaluateArgs ms).value.2
      ((evaluateArgs ms).calls name)) :
    Advances name (call options f args) m (invoke options f evaluateArgs ms).value.2
      (n + (invoke options f evaluateArgs ms).calls name) := by
  have hadvance (o : Outcome) := (hms.trans hargs).fill hempty options f o
  rw [invoke]
  simp only [Traced.value_bind, Traced.calls_bind]
  rw [hvalues]
  rw [invocation] at hadvance
  cases hdenote : denoteAll args with
  | ok values =>
    rw [hdenote] at hadvance
    simpa [Nat.add_assoc] using hadvance (f.call options values).value
  | error x =>
    rw [hdenote] at hadvance
    simpa using hadvance (.error x)

/-! ## Trees -/

/-- The cell of a node that is evaluated in stages is empty. -/
theorem outcome?_eq_none_of_staged {height : Nat} {m : Memo}
    (h : ¬ (height ≤ stageHeight || m.outcome?.isSome) = true) : m.outcome? = none := by
  rw [Bool.or_eq_true, not_or] at h
  exact Option.not_isSome_iff_eq_none.1 h.2

mutual

theorem valueOf_advances : ∀ (e : Expr), Accounts name e (valueOf e)
  | .literal v, m, _ => by
    rw [valueOf]
    exact .refl _ m
  | .constant _ v, m, _ => by
    rw [valueOf]
    exact .refl _ m
  | .call options f args, m, h => by
    rw [valueOf]
    split
    · exact .refl _ m
    · rename_i hempty
      rw [Coherent] at h
      have hadvance := invoke_advances options f hempty (.refl args m.children)
        (evaluateAll_spec args _ h.2).1 (evaluateAll_advances args _ h.2)
      rwa [Nat.zero_add] at hadvance
  | .binary options op l r, m, h => by
    rw [valueOf]
    split
    · exact .refl _ m
    · rename_i hempty
      rw [Coherent] at h
      have hadvance := operate_advances (valueOf_spec l) (valueOf_spec r)
        (valueOf_advances l) (valueOf_advances r) options op hempty h.2.1 h.2.2
        (.refl l _) (.refl r _)
      simpa using hadvance

theorem stage_advances : ∀ (e : Expr) (m : Memo), Coherent e m →
    Advances name e m (stage e m).value ((stage e m).calls name)
  | .literal v, m, _ => by
    rw [stage]
    exact .refl _ m
  | .constant _ v, m, _ => by
    rw [stage]
    exact .refl _ m
  | .call options f args, m, h => by
    rw [stage]
    split
    · exact .refl _ m
    · rename_i htall
      have hempty := outcome?_eq_none_of_staged htall
      rw [Coherent] at h
      have hstaged := stageAll_spec args m.children h.2
      have hadvance := invoke_advances options f hempty (stageAll_advances args m.children h.2)
        (evaluateAll_spec args _ hstaged).1 (evaluateAll_advances args _ hstaged)
      simpa using hadvance
  | .binary options op l r, m, h => by
    rw [stage]
    split
    · exact .refl _ m
    · rename_i htall
      have hempty := outcome?_eq_none_of_staged htall
      rw [Coherent] at h
      have hadvance := operate_advances (valueOf_spec l) (valueOf_spec r)
        (valueOf_advances l) (valueOf_advances r) options op hempty (stage_spec l _ h.2.1)
        (stage_spec r _ h.2.2) (stage_advances l _ h.2.1) (stage_advances r _ h.2.2)
      simpa [Nat.add_assoc] using hadvance

theorem evaluateAll_advances : ∀ (es : List Expr) (ms : List Memo), CoherentAll es ms →
    AdvancesAll name es ms (evaluateAll es ms).value.2
      ((evaluateAll es ms).calls name)
  | [], ms, _ => by
    rw [evaluateAll]
    exact .refl [] ms
  | e :: rest, ms, h => by
    rw [CoherentAll] at h
    have hstaged := stage_spec e _ h.1
    have hhead := (stage_advances e _ h.1).trans (valueOf_advances e _ hstaged)
    have htail := evaluateAll_advances rest _ h.2
    rw [evaluateAll]
    simp only [Traced.value_bind, Traced.calls_bind]
    rw [(valueOf_spec e _ hstaged).1]
    cases denote e with
    | error f => simpa using AdvancesAll.cons hhead (.refl rest ms.tail)
    | ok v => simpa [Nat.add_assoc] using AdvancesAll.cons hhead htail

theorem stageAll_advances : ∀ (es : List Expr) (ms : List Memo), CoherentAll es ms →
    AdvancesAll name es ms (stageAll es ms).value
      ((stageAll es ms).calls name)
  | [], ms, _ => by
    rw [stageAll]
    exact .refl [] ms
  | e :: rest, ms, h => by
    rw [CoherentAll] at h
    rw [stageAll]
    simpa using AdvancesAll.cons (stage_advances e _ h.1) (stageAll_advances rest _ h.2)

end

theorem evaluate_advances (e : Expr) : Accounts name e (evaluate e) := by
  intro m h
  have hstaged : Advances name e m (stage e m).value
      ((stage e m).calls name) := stage_advances e m h
  have hadvance := hstaged.trans (valueOf_advances e _ (stage_spec e m h))
  rwa [← Traced.calls_bind] at hadvance

end Expr
end Reckoner

import Mathlib
import Reckoner.Proofs.Expr.Skipping

/-!
# Memos with the same cells

A memo says nothing where it has no cell, so two memos can be laid out differently and still say
the same of every node (`Memo.Same`).  Evaluation reads nothing but the cells: on memos with the
same cells the plain recursion notes the same events, answers with the same outcome and leaves
memos with the same cells (`valueOf_same`), and so does staging, which has no answer
(`stage_same`).

Behind it stand two lemmas on one node, for any relation between memos that the readers of its
operands respect: `operate_rel` and `invoke_rel`.
-/

namespace Reckoner

/-! ## Calculations with related results -/

namespace Traced

variable {α β γ δ : Type} {R : α → β → Prop} {S : γ → δ → Prop}

/-- Two calculations that note the same events and come to related results. -/
structure Rel (R : α → β → Prop) (x : Traced α) (y : Traced β) : Prop where
  value : R x.value y.value
  events : x.events = y.events

theorem Rel.pure {a : α} {b : β} (h : R a b) : Rel R (pure a) (pure b) := ⟨h, rfl⟩

theorem Rel.bind {x : Traced α} {y : Traced β} {f : α → Traced γ} {g : β → Traced δ}
    (h : Rel R x y) (hnext : ∀ {a b}, R a b → Rel S (f a) (g b)) : Rel S (x >>= f) (y >>= g) :=
  ⟨(hnext h.value).value, congrArg₂ (· ++ ·) h.events (hnext h.value).events⟩

theorem Rel.map {x : Traced α} {y : Traced β} {f : α → γ} {g : β → δ} (h : Rel R x y)
    (hnext : ∀ {a b}, R a b → S (f a) (g b)) : Rel S (f <$> x) (g <$> y) :=
  ⟨hnext h.value, by rw [events_map, events_map, h.events]⟩

theorem Rel.map_right {T : α → δ → Prop} {x : Traced α} {y : Traced β} {g : β → δ} (h : Rel R x y)
    (hnext : ∀ {a b}, R a b → T a (g b)) : Rel T x (g <$> y) :=
  ⟨hnext h.value, h.events.trans (events_map g y).symm⟩

theorem Rel.mono {R' : α → β → Prop} {x : Traced α} {y : Traced β} (h : Rel R x y)
    (himp : ∀ {a b}, R a b → R' a b) : Rel R' x y :=
  ⟨himp h.value, h.events⟩

theorem Rel.trans {T : β → γ → Prop} {U : α → γ → Prop} {x : Traced α} {y : Traced β}
    {z : Traced γ} (h : Rel R x y) (h' : Rel T y z)
    (htrans : ∀ {a b c}, R a b → T b c → U a c) : Rel U x z :=
  ⟨htrans h.value h'.value, h.events.trans h'.events⟩

theorem bind_eq_of_value {x : Traced α} {f g : α → Traced γ} (h : f x.value = g x.value) :
    x >>= f = x >>= g :=
  ext (by rw [value_bind, value_bind, h]) (by rw [events_bind, events_bind, h])

theorem rel_eq_iff {x y : Traced α} : Rel Eq x y ↔ x = y :=
  ⟨fun h => ext h.value h.events, fun h => ⟨congrArg value h, congrArg events h⟩⟩

end Traced

/-! ## The same cells -/

namespace Memo

/-- The two memos say the same of every node. -/
def Same (m m' : Memo) : Prop := ∀ path, (m.under path).outcome? = (m'.under path).outcome?

/-- So do those of the `i`-th child, for every `i`. -/
def SameAll (ms ms' : List Memo) : Prop := ∀ i, Same (ms.getD i empty) (ms'.getD i empty)

theorem Same.refl (m : Memo) : Same m m := fun _ => rfl

theorem Same.symm {m m' : Memo} (h : Same m m') : Same m' m := fun path => (h path).symm

theorem Same.outcome {m m' : Memo} (h : Same m m') : m.outcome? = m'.outcome? := h []

theorem Same.children {m m' : Memo} (h : Same m m') : SameAll m.children m'.children :=
  fun i path => h (i :: path)

theorem Same.child {m m' : Memo} (h : Same m m') (i : Nat) : Same (m.child i) (m'.child i) :=
  h.children i

theorem Same.of_children {m m' : Memo} (houtcome : m.outcome? = m'.outcome?)
    (hchildren : ∀ i, Same (m.child i) (m'.child i)) : Same m m'
  | [] => houtcome
  | i :: path => hchildren i path

theorem Same.mk {ms ms' : List Memo} (h : SameAll ms ms') (o? : Option Outcome) :
    Same (mk o? ms) (mk o? ms') :=
  .of_children rfl h

theorem getD_zero (ms : List Memo) : ms.getD 0 empty = ms.headD empty := by
  cases ms <;> rfl

theorem getD_succ (ms : List Memo) (i : Nat) : ms.getD (i + 1) empty = ms.tail.getD i empty := by
  cases ms <;> rfl

theorem SameAll.head {ms ms' : List Memo} (h : SameAll ms ms') :
    Same (ms.headD empty) (ms'.headD empty) := by
  simpa only [getD_zero] using h 0

theorem SameAll.tail {ms ms' : List Memo} (h : SameAll ms ms') : SameAll ms.tail ms'.tail := by
  intro i
  simpa only [getD_succ] using h (i + 1)

theorem SameAll.cons {m m' : Memo} {ms ms' : List Memo} (h : Same m m') (hrest : SameAll ms ms') :
    SameAll (m :: ms) (m' :: ms')
  | 0 => h
  | i + 1 => hrest i

end Memo

namespace Expr

open Memo

variable {options : Options}

/-! ## One node -/

/-- The same answer, and related memos. -/
def Answered {α μ : Type} (R : μ → μ → Prop) (x y : α × μ) : Prop := x.1 = y.1 ∧ R x.2 y.2

/-- On related memos the two readers note the same, answer the same and leave related memos. -/
def Agree (R : Memo → Memo → Prop) (read read' : Memo → Traced (Outcome × Memo)) : Prop :=
  ∀ {m m'}, R m m' → (read m).Rel (Answered R) (read' m')

section

variable {L R : Memo → Memo → Prop}
  {readLeft readRight readLeft' readRight' : Memo → Traced (Outcome × Memo)}
  (hl : Agree L readLeft readLeft') (hr : Agree R readRight readRight')

include hl hr

theorem run_rel {α : Type} (q : Inquiry α) {ml mr ml' mr' : Memo} (hml : L ml ml')
    (hmr : R mr mr') :
    ((q.run (readOperand readLeft readRight)).run (ml, mr)).Rel
      (Answered fun x y => L x.1 y.1 ∧ R x.2 y.2)
      ((q.run (readOperand readLeft' readRight')).run (ml', mr')) := by
  induction q generalizing ml mr ml' mr' with
  | done a => exact .pure ⟨rfl, hml, hmr⟩
  | fail f => exact .pure ⟨rfl, hml, hmr⟩
  | ask side next ih =>
    have hread : ((readOperand readLeft readRight side).run (ml, mr)).Rel
        (Answered fun x y => L x.1 y.1 ∧ R x.2 y.2)
        ((readOperand readLeft' readRight' side).run (ml', mr')) := by
      cases side with
      | left => exact (hl hml).map fun h => ⟨h.1, h.2, hmr⟩
      | right => exact (hr hmr).map fun h => ⟨h.1, hml, h.2⟩
    rw [Inquiry.run, Inquiry.run, StateT.run_bind, StateT.run_bind]
    refine hread.bind ?_
    rintro ⟨o, ml₁, mr₁⟩ ⟨_, ml₂, mr₂⟩ ⟨rfl, hml, hmr⟩
    cases o with
    | ok v => exact ih v hml hmr
    | error f => exact .pure ⟨rfl, hml, hmr⟩

/-- Operations with readers that agree come to the same outcome, and what is left of the memos
of their operands is related. -/
theorem operate_rel (op : Operator) (costs : Costs) {ml mr ml' mr' : Memo} (hml : L ml ml')
    (hmr : R mr mr') :
    (operate options op costs readLeft readRight ml mr).Rel
      (fun x y => ∃ o ml mr ml' mr', x = (o, .mk (some o) [ml, mr]) ∧
        y = (o, .mk (some o) [ml', mr']) ∧ L ml ml' ∧ R mr mr')
      (operate options op costs readLeft' readRight' ml' mr') := by
  refine (run_rel hl hr _ hml hmr).bind ?_
  rintro ⟨plan, ml₁, mr₁⟩ ⟨_, ml₂, mr₂⟩ ⟨rfl, hml, hmr⟩
  cases plan <;>
    exact ⟨⟨_, ml₁, mr₁, ml₂, mr₂, rfl, rfl, hml, hmr⟩, rfl⟩

end

/-- Calls whose arguments come to the same come to the same outcome. -/
theorem invoke_rel {S : List Memo → List Memo → Prop} (f : Function)
    {evaluateArgs evaluateArgs' : List Memo → Traced (Except Fault (List Value) × List Memo)}
    {ms ms' : List Memo} (h : (evaluateArgs ms).Rel (Answered S) (evaluateArgs' ms')) :
    (invoke options f evaluateArgs ms).Rel
      (fun x y => ∃ o ms ms', x = (o, .mk (some o) ms) ∧ y = (o, .mk (some o) ms') ∧ S ms ms')
      (invoke options f evaluateArgs' ms') := by
  refine h.bind ?_
  rintro ⟨values, ms₁⟩ ⟨_, ms₂⟩ ⟨rfl, hms⟩
  cases values <;> exact ⟨⟨_, ms₁, ms₂, rfl, rfl, hms⟩, rfl⟩

/-! ## Trees -/

mutual

/-- The plain recursion reads nothing but the cells of the memo. -/
theorem valueOf_same : ∀ (e : Expr) {m m' : Memo}, Same m m' →
    (valueOf e m).Rel (Answered Same) (valueOf e m')
  | literal v, m, m', h => by
    rw [valueOf, valueOf]
    exact .pure ⟨rfl, h⟩
  | constant name v, m, m', h => by
    rw [valueOf, valueOf]
    exact .pure ⟨rfl, h⟩
  | call options f args, m, m', h => by
    rw [valueOf, valueOf, h.outcome]
    split
    · exact .pure ⟨rfl, h⟩
    · refine (invoke_rel f (evaluateAll_same args h.children)).mono ?_
      rintro _ _ ⟨o, ms, ms', rfl, rfl, hms⟩
      exact ⟨rfl, .mk hms _⟩
  | binary options op l r, m, m', h => by
    rw [valueOf, valueOf, h.outcome]
    split
    · exact .pure ⟨rfl, h⟩
    · refine (operate_rel (valueOf_same l) (valueOf_same r) op _ (h.child 0) (h.child 1)).mono ?_
      rintro _ _ ⟨o, ml, mr, ml', mr', rfl, rfl, hml, hmr⟩
      exact ⟨rfl, .mk (.cons hml (.cons hmr fun _ => .refl _)) _⟩

theorem stage_same : ∀ (e : Expr) {m m' : Memo}, Same m m' →
    (stage e m).Rel Same (stage e m')
  | literal v, m, m', h => by
    rw [stage, stage]
    exact .pure h
  | constant name v, m, m', h => by
    rw [stage, stage]
    exact .pure h
  | call options f args, m, m', h => by
    rw [stage, stage, h.outcome]
    split
    · exact .pure h
    · refine (stageAll_same args h.children).bind fun hms => ?_
      refine (invoke_rel f (evaluateAll_same args hms)).map ?_
      rintro _ _ ⟨o, ms, ms', rfl, rfl, hms⟩
      exact .mk hms _
  | binary options op l r, m, m', h => by
    rw [stage, stage, h.outcome]
    split
    · exact .pure h
    · refine (stage_same l (h.child 0)).bind fun hml => ?_
      refine (stage_same r (h.child 1)).bind fun hmr => ?_
      refine (operate_rel (valueOf_same l) (valueOf_same r) op _ hml hmr).map ?_
      rintro _ _ ⟨o, ml, mr, ml', mr', rfl, rfl, hml, hmr⟩
      exact .mk (.cons hml (.cons hmr fun _ => .refl _)) _

theorem evaluateAll_same : ∀ (es : List Expr) {ms ms' : List Memo}, SameAll ms ms' →
    (evaluateAll es ms).Rel (Answered SameAll) (evaluateAll es ms')
  | [], ms, ms', h => by
    rw [evaluateAll, evaluateAll]
    exact .pure ⟨rfl, h⟩
  | e :: rest, ms, ms', h => by
    rw [evaluateAll, evaluateAll]
    refine (stage_same e h.head).bind fun hm => (valueOf_same e hm).bind ?_
    rintro ⟨o, m⟩ ⟨_, m'⟩ ⟨rfl, hm⟩
    cases o with
    | error f => exact .pure ⟨rfl, .cons hm h.tail⟩
    | ok v =>
      refine (evaluateAll_same rest h.tail).bind ?_
      rintro ⟨values, ms⟩ ⟨_, ms'⟩ ⟨rfl, hms⟩
      exact .pure ⟨rfl, .cons hm hms⟩

theorem stageAll_same : ∀ (es : List Expr) {ms ms' : List Memo}, SameAll ms ms' →
    (stageAll es ms).Rel SameAll (stageAll es ms')
  | [], ms, ms', h => by
    rw [stageAll, stageAll]
    exact .pure h
  | e :: rest, ms, ms', h => by
    rw [stageAll, stageAll]
    exact (stage_same e h.head).bind fun hm =>
      (stageAll_same rest h.tail).bind fun hms => .pure (.cons hm hms)

end

end Expr
end Reckoner

import Mathlib
import Reckoner.Proofs.Arithmetic.Shortcut
import Reckoner.Proofs.Expr.Coherence

/-!
# Shortcuts preserve the meaning of an expression

`Expr.strict` is evaluation without any cleverness: every argument and both operands
of every node are evaluated, from left to right, and then the function is called or
the operator carried out in full.  Where that succeeds, the evaluation with
shortcuts, memo and stages gives the same value, written in the same way
(`evaluate_of_strict`).  The converse fails on purpose: a shortcut skips operands,
and with them their faults.
-/

namespace Reckoner

/-- A function that gives canonical values of canonical arguments. -/
def Function.KeepsCanonical (options : Options) (f : Function) : Prop :=
  ∀ args : List Value, (∀ a ∈ args, a.Canonical) →
    ∀ v, (f.call options args).value = .ok v → v.Canonical

namespace Expr

/-! ## Strict evaluation -/

mutual

/-- The outcome of an expression of which every part is evaluated. -/
def strict : Expr → Outcome
  | literal v | constant _ v => .ok v
  | call options f args => do
    let values ← strictAll args
    (f.call options values).value
  | binary options op l r => do
    let a ← strict l
    let b ← strict r
    Arithmetic.compute options op a b

/-- The values of the arguments of a call, or the first fault among them. -/
def strictAll : List Expr → Except Fault (List Value)
  | [] => .ok []
  | e :: rest => do
    let v ← strict e
    let values ← strictAll rest
    return v :: values

end

mutual

/-- The values at the leaves are canonical, the functions keep values so under the options of
their nodes, and the options of every operation admit the exponent one. -/
def IsCanonical : Expr → Prop
  | literal v | constant _ v => v.Canonical
  | call options f args => f.KeepsCanonical options ∧ AreCanonical args
  | binary options _ l r => 1 ≤ options.limits.exponent ∧ IsCanonical l ∧ IsCanonical r

/-- The same for all expressions of a list. -/
def AreCanonical : List Expr → Prop
  | [] => True
  | e :: rest => IsCanonical e ∧ AreCanonical rest

end

/-! ## Agreement -/

/-- An operation on two operands that have values is the operation on these values. -/
theorem denote_binary {options : Options} {op : Operator} {l r : Expr} {a b : Value}
    (hl : l.denote = .ok a) (hr : r.denote = .ok b) :
    (binary options op l r).denote = Operation.settled options (costs l r) op a b := by
  rw [denote, hl, hr]
  rfl

mutual

/-- Where strict evaluation has a value, the recursion with shortcuts has it too, and
it is canonical. -/
theorem denote_of_strict :
    ∀ (e : Expr), e.IsCanonical → ∀ v, e.strict = .ok v →
      e.denote = .ok v ∧ v.Canonical
  | literal w, hc, v, h => by
    rw [IsCanonical] at hc
    rw [strict] at h
    cases h
    exact ⟨by rw [denote], hc⟩
  | constant name w, hc, v, h => by
    rw [IsCanonical] at hc
    rw [strict] at h
    cases h
    exact ⟨by rw [denote], hc⟩
  | call options f args, hc, v, h => by
    rw [IsCanonical] at hc
    rw [strict] at h
    obtain ⟨values, hvalues, hcall⟩ := ok_of_bind_eq_ok h
    obtain ⟨hdenote, hcanonical⟩ := denoteAll_of_strictAll args hc.2 values hvalues
    exact ⟨by rw [denote, hdenote]; exact hcall, hc.1 values hcanonical v hcall⟩
  | binary options op l r, hc, v, h => by
    rw [IsCanonical] at hc
    rw [strict] at h
    obtain ⟨a, ha, h⟩ := ok_of_bind_eq_ok h
    obtain ⟨b, hb, hcompute⟩ := ok_of_bind_eq_ok h
    obtain ⟨hdenotel, hca⟩ := denote_of_strict l hc.2.1 a ha
    obtain ⟨hdenoter, hcb⟩ := denote_of_strict r hc.2.2 b hb
    refine ⟨?_, Arithmetic.canonical_compute hcompute⟩
    rw [denote_binary hdenotel hdenoter,
      Operation.settled_eq_compute (costs l r) hca hcb fun _ => hc.1, hcompute]

theorem denoteAll_of_strictAll :
    ∀ (es : List Expr), AreCanonical es → ∀ vs, strictAll es = .ok vs →
      denoteAll es = .ok vs ∧ ∀ v ∈ vs, v.Canonical
  | [], _, vs, h => by
    rw [strictAll] at h
    cases h
    exact ⟨by rw [denoteAll], by simp⟩
  | e :: rest, hc, vs, h => by
    rw [AreCanonical] at hc
    rw [strictAll] at h
    obtain ⟨v, hv, h⟩ := ok_of_bind_eq_ok h
    obtain ⟨values, hvalues, h⟩ := ok_of_bind_eq_ok h
    cases h
    obtain ⟨hdenote, hcv⟩ := denote_of_strict e hc.1 v hv
    obtain ⟨hdenoteAll, hcvs⟩ := denoteAll_of_strictAll rest hc.2 values hvalues
    refine ⟨?_, by simpa using ⟨hcv, hcvs⟩⟩
    rw [denoteAll, hdenote]
    show (denoteAll rest).map (v :: ·) = _
    rw [hdenoteAll]
    rfl

end

/-- **Shortcuts preserve meaning.**  Let the leaves of an expression be canonical, let its
functions keep values canonical, and let its operations admit the exponent one, each under
the options of its own node.  If strict evaluation succeeds, then evaluation gives the very
same value, of the fresh expression and of one of which any part has been evaluated
before. -/
theorem evaluate_of_strict {e : Expr} (he : e.IsCanonical) {v : Value} (h : e.strict = .ok v) :
    e.outcome.value = .ok v ∧
      ∀ m : Memo, m.Coherent e → (e.evaluate m).value.1 = .ok v := by
  obtain ⟨hdenote, -⟩ := denote_of_strict e he v h
  exact ⟨by rw [value_outcome, hdenote], fun m hm => by rw [(evaluate_spec e m hm).1, hdenote]⟩

/-- `neg(0.5) * 0 + third ^ 1`, in which two shortcuts apply and the call is skipped; the power
is taken under tighter limits than the rest. -/
def skippingSample : Expr :=
  .binary {} .add
    (.binary {} .mul (.call {} (.unary "neg" fun _ x => .ok (-x)) [.literal (.decimal ⟨5, 1⟩)])
      (.literal 0))
    (.binary { limits := { exponent := 1 } } .pow (.constant "third" (.ratio (1 / 3))) (.literal 1))

theorem keepsCanonical_neg (options : Options) :
    (Function.unary "neg" fun _ x => .ok (-x)).KeepsCanonical options := by
  intro args hargs v h
  cases args with
  | nil => cases h
  | cons x rest =>
    cases rest with
    | nil =>
      cases h
      exact (hargs x (by simp)).neg
    | cons y rest => cases h

theorem evaluate_of_strict_skippingSample :
    skippingSample.IsCanonical ∧ skippingSample.strict = .ok (.ratio (1 / 3)) ∧
      skippingSample.outcome.value = .ok (.ratio (1 / 3)) := by
  have hthird : (Value.ratio (1 / 3)).Canonical := Value.canonical_of_three_dvd (by norm_num)
  have hcanonical : skippingSample.IsCanonical := by
    simp only [skippingSample, IsCanonical, AreCanonical]
    exact ⟨by decide, ⟨by decide, ⟨keepsCanonical_neg {}, ⟨by decide, by decide⟩, trivial⟩,
      trivial⟩, by decide, hthird, trivial⟩
  have hstrict : skippingSample.strict = .ok (.ratio (1 / 3)) := by decide +kernel
  exact ⟨hcanonical, hstrict, (evaluate_of_strict hcanonical hstrict).1⟩

end Expr
end Reckoner

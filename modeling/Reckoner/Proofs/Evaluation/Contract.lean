import Mathlib
import Reckoner.Proofs.Arithmetic.Shortcut
import Reckoner.Proofs.Expr.Coherence
import Reckoner.Proofs.Grammar.Printing

/-!
# What every evaluation promises

Whatever an expression computes is an operand handed on, the opposite of one, or a value in
canonical form; whatever fails in it fails with an arithmetic fault or inside a function.  So a
promise about values and faults that covers all this is kept by every evaluation if the constants
and the functions of the expression keep it.  Such a promise is a `Contract`.

* an inquiry keeps a contract if whatever it decides does, as long as its answers do
  (`keeps_run`); every shortcut is such an inquiry (`asks_rule`);
* the full computation keeps every contract (`keeps_compute`), and so does every operation
  (`keeps_operation`);
* trees over a registry whose constants and functions keep a contract keep it (`keeps_denote`).
-/

namespace Reckoner

/-- A promise about values and faults that arithmetic can keep. -/
structure Contract where
  /-- What is promised of a value. -/
  value : Value → Prop
  /-- What is promised of a fault. -/
  fault : Fault → Prop
  canonical : ∀ {v : Value}, v.Canonical → value v
  neg : ∀ {v : Value}, value v → value (-v)
  arithmetic : ∀ cause : ArithmeticCause, fault (.arithmetic cause)

namespace Contract

variable {c : Contract} {α β : Type} {P : α → Prop} {Q : β → Prop}

/-! ## Results -/

/-- A result keeps the contract: if it is a fault, what is promised of faults holds, and
otherwise `P`. -/
def Keeps (c : Contract) (P : α → Prop) : Except Fault α → Prop
  | .ok a => P a
  | .error f => c.fault f

theorem keeps_ok {a : α} (h : P a) : c.Keeps P (.ok a) := h

theorem keeps_bind {x : Except Fault α} {f : α → Except Fault β} (hx : c.Keeps P x)
    (hf : ∀ a, P a → c.Keeps Q (f a)) : c.Keeps Q (x >>= f) := by
  cases x with
  | ok a => exact hf a hx
  | error e => exact hx

theorem keeps_map {x : Except Fault α} {f : α → β} (hx : c.Keeps P x) (hf : ∀ a, P a → Q (f a)) :
    c.Keeps Q (x.map f) := by
  cases x with
  | ok a => exact hf a hx
  | error e => exact hx

/-- An outcome that is canonical if it is a value only has its fault to answer for. -/
theorem keeps_of_canonical {o : Outcome} (h : c.Keeps (fun _ => True) o)
    (hcanonical : ∀ v, o = .ok v → v.Canonical) : c.Keeps c.value o := by
  cases o with
  | ok v => exact c.canonical (hcanonical v rfl)
  | error f => exact h

theorem keeps_divisionByZero : c.Keeps P (.error .divisionByZero) := c.arithmetic _

theorem value_zero : c.value 0 := c.canonical trivial

theorem value_one : c.value 1 := c.canonical trivial

/-! ## Inquiries -/

/-- Whatever the inquiry decides keeps the contract, as long as the answers do. -/
def Asks (c : Contract) (P : α → Prop) : Inquiry α → Prop
  | .done a => P a
  | .fail f => c.fault f
  | .ask _ next => ∀ v, c.value v → c.Asks P (next v)

theorem asks_bind {q : Inquiry α} {f : α → Inquiry β} (hq : c.Asks P q)
    (hf : ∀ a, P a → c.Asks Q (f a)) : c.Asks Q (q >>= f) := by
  induction q with
  | done a => exact hf a hq
  | fail x => exact hq
  | ask side next ih =>
    intro v hv
    exact ih v (hq v hv)

/-- An inquiry that is answered by operands that keep the contract keeps it. -/
theorem keeps_run {read : Side → Outcome} (hread : ∀ side, c.Keeps c.value (read side))
    {q : Inquiry α} (hq : c.Asks P q) : c.Keeps P (q.run (m := Id) read) := by
  induction q with
  | done a => exact hq
  | fail x => exact hq
  | ask side next ih =>
    have hside := hread side
    rw [Inquiry.run_ask]
    cases hanswer : read side with
    | error f =>
      rw [hanswer] at hside
      exact hside
    | ok v =>
      rw [hanswer] at hside
      exact ih v (hq v hside)

theorem keeps_settle {a b : Value} (ha : c.value a) (hb : c.value b) {q : Inquiry α}
    (hq : c.Asks P q) : c.Keeps P (q.settle a b) :=
  keeps_run (fun side => by cases side <;> assumption) hq

/-- An answer that is handed on. -/
theorem asks_valueOf (side : Side) : c.Asks c.value (.valueOf side) := fun _ hv => hv

theorem asks_ite {p : Prop} [Decidable p] {x y : Inquiry α} (hx : c.Asks P x)
    (hy : c.Asks P y) : c.Asks P (if p then x else y) := by
  by_cases h : p
  · rwa [if_pos h]
  · rwa [if_neg h]

/-! ## Shortcuts -/

/-- What a shortcut rule promises: its result, if it has one. -/
def Settles (c : Contract) (v? : Option Value) : Prop := ∀ v, v? = some v → c.value v

theorem settles_none : c.Settles none := by
  intro v hv
  cases hv

theorem settles_some {v : Value} (h : c.value v) : c.Settles (some v) := by
  rintro w ⟨⟩
  exact h

theorem settles_ite {p : Prop} [Decidable p] {x? y? : Option Value} (hx : c.Settles x?)
    (hy : c.Settles y?) : c.Settles (if p then x? else y?) := by
  by_cases h : p
  · rwa [if_pos h]
  · rwa [if_neg h]

theorem asks_find (costs : Costs) (l : Landmark) :
    c.Asks (fun _ => True) (Shortcut.find costs l) := by
  intro v _
  refine asks_ite trivial ?_
  intro w _
  exact asks_ite trivial trivial

theorem asks_add (costs : Costs) : c.Asks c.Settles (Shortcut.add costs) := by
  refine asks_bind (asks_find costs .zero) fun side? _ => ?_
  cases side? with
  | some side => exact asks_bind (asks_valueOf side.other) fun v hv => settles_some hv
  | none =>
    intro a _ b _
    exact settles_ite (settles_some value_zero) settles_none

theorem asks_sub (costs : Costs) : c.Asks c.Settles (Shortcut.sub costs) := by
  refine asks_bind (asks_find costs .zero) fun side? _ => ?_
  cases side? with
  | some side =>
    cases side with
    | left => exact asks_bind (asks_valueOf .right) fun v hv => settles_some (c.neg hv)
    | right => exact asks_bind (asks_valueOf .left) fun v hv => settles_some hv
  | none =>
    intro a _ b _
    exact settles_ite (settles_some value_zero) settles_none

theorem asks_mul (costs : Costs) : c.Asks c.Settles (Shortcut.mul costs) := by
  refine asks_bind (asks_find costs .zero) fun zero? _ => ?_
  cases zero? with
  | some side => exact settles_some value_zero
  | none =>
    refine asks_bind (asks_find costs .one) fun one? _ => ?_
    cases one? with
    | some side => exact asks_bind (asks_valueOf side.other) fun v hv => settles_some hv
    | none =>
      refine asks_bind (asks_find costs .minusOne) fun minusOne? _ => ?_
      cases minusOne? with
      | some side =>
        exact asks_bind (asks_valueOf side.other) fun v hv => settles_some (c.neg hv)
      | none => exact settles_none

theorem settles_divKnown {a : Value} (ha : c.value a) (b : Value) :
    c.Settles (Shortcut.divKnown a b) := by
  unfold Shortcut.divKnown
  exact settles_ite (settles_some ha)
    (settles_ite (settles_some (c.neg ha)) (settles_ite (settles_some value_one) settles_none))

theorem asks_div (policy : ZeroOverZero) : c.Asks c.Settles (Shortcut.div policy) := by
  cases policy with
  | zero =>
    intro a ha
    refine asks_ite (settles_some value_zero) ?_
    intro b _
    exact asks_ite (c.arithmetic _) (settles_divKnown ha b)
  | fault =>
    intro b _
    refine asks_ite (c.arithmetic _) ?_
    intro a ha
    exact settles_ite (settles_some value_zero) (settles_divKnown ha b)

theorem asks_pow : c.Asks c.Settles Shortcut.pow := by
  intro b _
  refine asks_ite (settles_some value_one) ?_
  intro a ha
  exact settles_ite (settles_some value_zero) (settles_ite (settles_some ha) settles_none)

/-- The result of a shortcut keeps every contract that the operands keep. -/
theorem asks_rule (options : Options) (costs : Costs) (op : Operator) :
    c.Asks c.Settles (Shortcut.rule options costs op) := by
  cases op with
  | add => exact asks_add costs
  | sub => exact asks_sub costs
  | mul => exact asks_mul costs
  | div => exact asks_div options.zeroOverZero
  | pow => exact asks_pow

/-! ## The full computation -/

section Compute

variable (c) (options : Options)

theorem keeps_checkExponent (n : Int) :
    c.Keeps (fun _ => True) (Arithmetic.checkExponent options n) := by
  unfold Arithmetic.checkExponent
  split
  · trivial
  · exact c.arithmetic _

theorem keeps_expScaled (z : Int) (w : Nat) :
    c.Keeps (fun _ => True) (FixedPoint.expScaled z w) := by
  unfold FixedPoint.expScaled
  simp only []
  split
  · exact c.arithmetic _
  · split
    · exact c.arithmetic _
    · trivial

theorem keeps_power (x y : Rat) (precision : Nat) :
    c.Keeps (fun _ => True) (FixedPoint.power x y precision) := by
  unfold FixedPoint.power
  split
  · exact c.arithmetic _
  · exact c.keeps_expScaled _ _

theorem keeps_choose (a b : Value) :
    c.Keeps (fun _ => True) (Arithmetic.PowerMethod.choose options a b) := by
  unfold Arithmetic.PowerMethod.choose
  split
  · trivial
  · split
    · trivial
    · simp only []
      split
      · trivial
      · split
        · exact c.arithmetic _
        · refine keeps_bind (c.keeps_checkExponent options _) fun _ _ => ?_
          split
          · split <;> trivial
          · trivial

theorem keeps_quotient (num den : Int) :
    c.Keeps (fun _ => True) (Arithmetic.quotient num den) := by
  by_cases hden : den = 0
  · rw [hden, Arithmetic.quotient_zero]
    exact keeps_divisionByZero
  · rw [Arithmetic.quotient_eq hden]
    trivial

theorem keeps_integerPower (base : Rat) (n : Int) :
    c.Keeps (fun _ => True) (Arithmetic.integerPower options base n) := by
  refine keeps_bind (c.keeps_checkExponent options n) fun _ _ => ?_
  dsimp only
  split <;> exact c.keeps_quotient _ _

theorem keeps_carryOut (method : Arithmetic.PowerMethod) :
    c.Keeps (fun _ => True) (method.carryOut options) := by
  cases method with
  | known v => trivial
  | integer base n => exact c.keeps_integerPower options base n
  | exactRoot root n => exact c.keeps_integerPower options root n
  | approximate x y => exact keeps_bind (c.keeps_power x y options.precision) fun _ _ => trivial

/-- Whatever is computed keeps every contract, whatever the operands are. -/
theorem keeps_compute (op : Operator) (a b : Value) :
    c.Keeps c.value (Arithmetic.compute options op a b) := by
  refine keeps_of_canonical ?_ fun v => Arithmetic.canonical_compute
  cases op with
  | add =>
    rw [Arithmetic.compute_add]
    trivial
  | sub =>
    rw [Arithmetic.compute_sub]
    trivial
  | mul =>
    obtain ⟨v, hv⟩ := Arithmetic.exists_mul_eq_ok a b
    rw [Arithmetic.compute, hv]
    trivial
  | div =>
    by_cases hb : b.toRat = 0
    · rw [Arithmetic.compute_div_zero options a b hb]
      split
      · trivial
      · exact keeps_divisionByZero
    · rw [Arithmetic.compute_div options a b hb]
      trivial
  | pow =>
    exact keeps_bind (c.keeps_choose options a b) fun method _ => c.keeps_carryOut options method

end Compute

/-! ## Operations -/

/-- What is promised of an operation that is settled. -/
def SettlesOperation (c : Contract) : Operation → Prop
  | .shortcut v => c.value v
  | .full _ _ => True

theorem asks_plan (options : Options) (costs : Costs) (op : Operator) :
    c.Asks c.SettlesOperation (Operation.plan options costs op) := by
  refine asks_bind (asks_rule options costs op) fun v? hv => ?_
  cases v? with
  | some v => exact hv v rfl
  | none =>
    intro a _ b _
    trivial

theorem keeps_conclude (options : Options) (op : Operator) {operation : Operation}
    (h : c.SettlesOperation operation) : c.Keeps c.value (operation.conclude options op).value := by
  cases operation with
  | shortcut v => exact h
  | full a b =>
    rw [Operation.conclude, Arithmetic.value_computeTraced]
    exact c.keeps_compute options op a b

/-- An operation on operands that keep a contract keeps it. -/
theorem keeps_operation (options : Options) (costs : Costs) (op : Operator)
    {read : Side → Outcome} (hread : ∀ side, c.Keeps c.value (read side)) :
    c.Keeps c.value (match (Operation.plan options costs op).run (m := Id) read with
      | .ok operation => (operation.conclude options op).value
      | .error f => .error f) := by
  have hplan : c.Keeps c.SettlesOperation ((Operation.plan options costs op).run (m := Id) read) :=
    keeps_run hread (asks_plan options costs op)
  cases hrun : (Operation.plan options costs op).run (m := Id) read with
  | ok operation =>
    rw [hrun] at hplan
    exact keeps_conclude options op hplan
  | error f =>
    rw [hrun] at hplan
    exact hplan

end Contract

/-! ## Trees -/

/-- A function keeps a contract: called with as many arguments as it accepts, of which the
contract holds, it returns what the contract promises. -/
def Function.Keeps (f : Function) (c : Contract) (options : Options) : Prop :=
  ∀ args : List Value, f.arity.accepts args.length = true → (∀ a ∈ args, c.value a) →
    c.Keeps c.value (f.call options args).value

/-- The constants and the functions of a registry keep a contract. -/
structure Registry.Keeps (r : Registry) (c : Contract) (options : Options) : Prop where
  constants : ∀ k ∈ r.constants, c.value k.value
  functions : ∀ f ∈ r.functions, f.Keeps c options

namespace Expr

open Contract

variable {c : Contract} {options : Options} {r : Registry}

mutual

/-- A tree over a registry that keeps a contract keeps it. -/
theorem keeps_denote (hr : r.Keeps c options) : ∀ e : Expr, e.Readable r options →
    c.Keeps c.value e.denote
  | literal v, h => by
    rw [Readable] at h
    rw [denote]
    exact c.canonical h.1
  | constant name v, h => by
    rw [Readable] at h
    rw [denote]
    exact hr.constants _ (Registry.of_constant?_eq_some h.2).1
  | call own f args, h => by
    rw [Readable] at h
    obtain ⟨hown, -, hf, harity, hargs⟩ := h
    have hvalues := keeps_denoteAll hr args hargs
    rw [denote, hown]
    cases hdenote : denoteAll args with
    | error x =>
      rw [hdenote] at hvalues
      exact hvalues
    | ok values =>
      rw [hdenote] at hvalues
      obtain ⟨hlength, hvalues⟩ := hvalues
      refine hr.functions f (Registry.of_function?_eq_some hf).1 values ?_ hvalues
      rwa [hlength]
  | binary own op left right, h => by
    rw [Readable] at h
    obtain ⟨hown, hleft, hright⟩ := h
    have hleft := keeps_denote hr left hleft
    have hright := keeps_denote hr right hright
    rw [denote, hown]
    refine keeps_operation options (costs left right) op fun side => ?_
    cases side with
    | left => exact hleft
    | right => exact hright

theorem keeps_denoteAll (hr : r.Keeps c options) : ∀ es : List Expr,
    AllReadable r options es →
    c.Keeps (fun vs => vs.length = es.length ∧ ∀ v ∈ vs, c.value v) (denoteAll es)
  | [], _ => by
    rw [denoteAll]
    exact ⟨rfl, by simp⟩
  | e :: rest, h => by
    rw [AllReadable] at h
    have hfirst := keeps_denote hr e h.1
    have hrest := keeps_denoteAll hr rest h.2
    rw [denoteAll]
    cases hdenote : denote e with
    | error f =>
      rw [hdenote] at hfirst
      exact hfirst
    | ok v =>
      rw [hdenote] at hfirst
      refine keeps_map hrest fun vs hvs => ⟨?_, ?_⟩
      · simp [hvs.1]
      · simpa using ⟨hfirst, hvs.2⟩

end

end Expr
end Reckoner

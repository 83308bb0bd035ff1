import Mathlib
import Reckoner.Proofs.Evaluation.Contract
import Reckoner.Standard

/-!
# The standard functions keep every contract

A function of the standard table returns a canonical value, its argument, the opposite of it or
one of its arguments, and its own faults are arithmetic.  With as many arguments as it accepts it
therefore keeps every contract that its arguments keep (`keeps_functions`), at every precision and
with every limit.

The standard constants are canonical at every precision (`canonical_constants`).
-/

namespace Reckoner

open Contract

/-! ## Functions by their arity -/

namespace Function

variable {c : Contract} {options : Options}

theorem keeps_unary {name : String} {g : Options → Value → Outcome}
    (h : ∀ x, c.value x → c.Keeps c.value (g options x)) :
    (unary name g).Keeps c options := by
  intro args harity hargs
  cases args with
  | nil => cases harity
  | cons x rest =>
    cases rest with
    | nil => exact h x (hargs x (by simp))
    | cons y rest => cases harity

theorem keeps_binary {name : String} {g : Options → Value → Value → Traced Outcome}
    (h : ∀ x y, c.value x → c.value y → c.Keeps c.value (g options x y).value) :
    (binary name g).Keeps c options := by
  intro args harity hargs
  cases args with
  | nil => cases harity
  | cons x rest =>
    cases rest with
    | nil => cases harity
    | cons y rest =>
      cases rest with
      | nil => exact h x y (hargs x (by simp)) (hargs y (by simp))
      | cons z rest => cases harity

theorem keeps_nonempty {name : String} {g : Value → List Value → Value}
    (h : ∀ x rest, c.value x → (∀ y ∈ rest, c.value y) → c.value (g x rest)) :
    (nonempty name g).Keeps c options := by
  intro args harity hargs
  cases args with
  | nil => cases harity
  | cons x rest =>
    have haccepted : (nonempty name g).arity.accepts (x :: rest).length = true := harity
    rw [call, if_pos haccepted]
    exact h x rest (hargs x (by simp)) fun y hy => hargs y (by simp [hy])

end Function

namespace Standard

variable {c : Contract} (options : Options)

/-! ## Exact functions -/

theorem keeps_quotient (num den : Int) : c.Keeps c.value (Arithmetic.quotient num den) :=
  keeps_of_canonical (c.keeps_quotient num den) fun _ => Arithmetic.canonical_quotient

theorem keeps_lcm (a b : Value) : c.Keeps c.value (lcm a b) := by
  unfold lcm
  split
  · exact value_zero
  · exact keeps_quotient _ _

theorem value_abs {v : Value} (h : c.value v) : c.value v.abs := by
  unfold Value.abs
  split
  · exact c.neg h
  · exact h

/-- An extremum is one of the values that it is taken of. -/
theorem value_extremum (better : Ordering) {first : Value} {rest : List Value}
    (hfirst : c.value first) (hrest : ∀ v ∈ rest, c.value v) :
    c.value (extremum better first rest) := by
  unfold extremum
  induction rest generalizing first with
  | nil => exact hfirst
  | cons v rest ih =>
    obtain ⟨hv, hrest⟩ := List.forall_mem_cons.1 hrest
    refine ih ?_ hrest
    show c.value (if (v.compare first == better) = true then v else first)
    by_cases hbetter : (v.compare first == better) = true
    · rwa [if_pos hbetter]
    · rwa [if_neg hbetter]

/-! ## Rounded functions -/

theorem keeps_rounded {r : Except Fault Rat} (h : c.Keeps (fun _ => True) r) :
    c.Keeps c.value (rounded options r) :=
  keeps_map h fun q _ => c.canonical (Value.canonical_approximate q options.precision)

theorem keeps_tan (x : Rat) (precision : Nat) :
    c.Keeps (fun _ => True) (FixedPoint.tan x precision) := by
  unfold FixedPoint.tan
  split
  · trivial
  · simp only []
    split
    · exact c.arithmetic _
    · trivial

theorem keeps_ln (x : Rat) (precision : Nat) :
    c.Keeps (fun _ => True) (FixedPoint.ln x precision) := by
  unfold FixedPoint.ln
  split
  · exact c.arithmetic _
  · split <;> trivial

theorem keeps_rootSqrt (x : Rat) (precision : Nat) :
    c.Keeps (fun _ => True) (Root.sqrt x precision) := by
  unfold Root.sqrt
  split
  · exact c.arithmetic _
  · split <;> trivial

theorem keeps_sqrt (x : Value) : c.Keeps c.value (sqrt options x) := by
  unfold sqrt
  split
  · exact keeps_quotient _ _
  · exact keeps_rounded options (keeps_rootSqrt _ _)

theorem keeps_exp (x : Value) : c.Keeps c.value (exp options x) := by
  unfold exp
  split
  · exact value_one
  · exact keeps_rounded options (c.keeps_expScaled _ _)

/-- The function `pow` is the operator, shortcuts included. -/
theorem keeps_apply (op : Operator) {a b : Value} (ha : c.value a) (hb : c.value b) :
    c.Keeps c.value (Operation.applyTraced options op a b).value := by
  have hplan : c.Keeps c.SettlesOperation
      ((Operation.plan options Operation.knownCosts op).settle a b) :=
    keeps_settle ha hb (asks_plan options Operation.knownCosts op)
  unfold Operation.applyTraced
  cases hsettled : (Operation.plan options Operation.knownCosts op).settle a b with
  | ok operation =>
    rw [hsettled] at hplan
    exact keeps_conclude options op hplan
  | error f =>
    rw [hsettled] at hplan
    exact hplan

/-! ## The tables -/

/-- **Every standard function keeps every contract**, whatever the options are. -/
theorem keeps_functions {f : Function} (hf : f ∈ functions) : f.Keeps c options := by
  simp only [functions, List.mem_cons, List.not_mem_nil, or_false] at hf
  rcases hf with rfl | rfl | rfl | rfl | rfl | rfl | rfl | rfl | rfl | rfl | rfl | rfl | rfl | rfl
  · exact Function.keeps_unary fun x _ => keeps_rounded options (keeps_ok trivial)
  · exact Function.keeps_unary fun x _ => keeps_rounded options (keeps_ok trivial)
  · exact Function.keeps_unary fun x _ => keeps_rounded options (keeps_tan _ _)
  · exact Function.keeps_unary fun x _ => keeps_sqrt options x
  · exact Function.keeps_unary fun x _ => keeps_rounded options (keeps_ln _ _)
  · exact Function.keeps_unary fun x _ => keeps_exp options x
  · exact Function.keeps_binary fun x y hx hy => keeps_apply options .pow hx hy
  · exact Function.keeps_binary fun x y _ _ => keeps_quotient _ _
  · exact Function.keeps_binary fun x y _ _ => keeps_quotient _ _
  · exact Function.keeps_binary fun x y _ _ => keeps_lcm x y
  · exact Function.keeps_unary fun x hx => value_abs hx
  · exact Function.keeps_unary fun x hx => c.neg hx
  · exact Function.keeps_nonempty fun x rest hx hrest => value_extremum .lt hx hrest
  · exact Function.keeps_nonempty fun x rest hx hrest => value_extremum .gt hx hrest

/-- The standard constants are rounded, hence canonical, at every precision. -/
theorem canonical_constants {precision : Nat} {k : Constant} (hk : k ∈ constants precision) :
    k.value.Canonical := by
  simp only [constants, List.mem_cons, List.not_mem_nil, or_false] at hk
  -- rewriting, because to apply the lemma would be to compute π
  rcases hk with rfl | rfl <;> simp only [Value.canonical_approximate]

end Standard
end Reckoner

import Mathlib
import Reckoner.Proofs.Arithmetic.Exact
import Reckoner.Shortcut

/-!
# Shortcuts agree with the full computation

A shortcut rule looks at its operands one at a time and may settle an operation
without carrying it out.  On canonical operands it never says anything but what the
full computation says, down to the way the value is written and to the fault
(`rule_agrees`).  So a whole operation is the full computation, whichever operand
the costs let it look at first (`settled_eq_compute`), and `apply_eq_compute` says it of two
known values.
-/

namespace Reckoner

/-- The value of the operand on one side. -/
def Side.pick : Side → Value → Value → Value
  | left, a, _ => a
  | right, _, b => b

@[simp] theorem Side.pick_left (a b : Value) : Side.left.pick a b = a := rfl

@[simp] theorem Side.pick_right (a b : Value) : Side.right.pick a b = b := rfl

@[simp] theorem Side.other_left : Side.left.other = .right := rfl

@[simp] theorem Side.other_right : Side.right.other = .left := rfl

namespace Inquiry

variable {α β : Type}

theorem settle_ask (side : Side) (next : Value → Inquiry α) (a b : Value) :
    (ask side next).settle a b = (next (side.pick a b)).settle a b := by
  cases side <;> simp

@[simp] theorem settle_valueOf (side : Side) (a b : Value) :
    (valueOf side).settle a b = .ok (side.pick a b) := by
  rw [valueOf, settle_ask, settle_done]

/-- A question that is answered by an outcome at hand. -/
theorem run_ask (read : Side → Outcome) (side : Side) (next : Value → Inquiry α) :
    (ask side next).run (m := Id) read =
      match read side with
      | .ok v => (next v).run (m := Id) read
      | .error f => .error f := by
  rw [run]
  rfl

/-- Once the first part is decided, only the second is left. -/
theorem settle_bind_ok {q : Inquiry α} {x : α} {a b : Value} (h : q.settle a b = .ok x)
    (f : α → Inquiry β) : (q >>= f).settle a b = (f x).settle a b := by
  rw [settle_bind, h]
  rfl

end Inquiry

namespace Shortcut

open Arithmetic

/-! ## Looking for a landmark -/

/-- A search that finds a side found the landmark there; one that finds nothing has
looked at both operands. -/
theorem settle_find (costs : Costs) (l : Landmark) (a b : Value) :
    (∃ side, (find costs l).settle a b = .ok (some side) ∧ (side.pick a b).is l = true) ∨
      ((find costs l).settle a b = .ok none ∧ a.is l = false ∧ b.is l = false) := by
  have hfirst : (find costs l).settle a b =
      if ((cheaper costs).pick a b).is l = true then .ok (some (cheaper costs))
      else if ((cheaper costs).other.pick a b).is l = true then .ok (some (cheaper costs).other)
      else .ok none := by
    simp only [find, Inquiry.valueOf_bind, Inquiry.pure_eq, Inquiry.settle_ask]
    split
    · rfl
    · rw [Inquiry.settle_ask]
      split <;> rfl
  rw [hfirst]
  split
  · rename_i h
    exact Or.inl ⟨_, rfl, h⟩
  · rename_i h
    split
    · rename_i h'
      exact Or.inl ⟨_, rfl, h'⟩
    · rename_i h'
      rw [Bool.not_eq_true] at h h'
      refine Or.inr ⟨rfl, ?_⟩
      cases hside : cheaper costs <;> rw [hside] at h h'
      · exact ⟨h, h'⟩
      · exact ⟨h', h⟩

/-! ## Each rule -/

/-- What a rule decided is what the full computation comes to; a rule that decides
nothing claims nothing. -/
def Agrees (options : Options) (op : Operator) (a b : Value) : Except Fault (Option Value) → Prop
  | .ok (some v) => compute options op a b = .ok v
  | .ok none => True
  | .error f => compute options op a b = .error f

variable {options : Options} {a b : Value}

/-- A canonical value decided by a rule is right if it is the right number. -/
theorem agrees_of_toRat_eq {op : Operator} {v : Value} {q : Rat}
    (hcompute : compute options op a b = .ok (.ofRat q)) (hv : v.Canonical) (hq : v.toRat = q) :
    Agrees options op a b (.ok (some v)) := by
  rw [Agrees, hcompute, ← hq, Value.ofRat_toRat hv]

theorem add_agrees (costs : Costs) (ha : a.Canonical) (hb : b.Canonical) :
    Agrees options .add a b ((add costs).settle a b) := by
  rcases settle_find costs .zero a b with ⟨side, hfind, hside⟩ | ⟨hfind, -, -⟩
  · rw [add, Inquiry.settle_bind_ok hfind, Inquiry.settle_bind_ok (Inquiry.settle_valueOf _ a b)]
    rw [Value.is_zero_iff] at hside
    cases side with
    | left =>
      show Agrees options .add a b (.ok (some b))
      refine agrees_of_toRat_eq (compute_add options a b) hb ?_
      rw [show a.toRat = 0 from hside, zero_add]
    | right =>
      show Agrees options .add a b (.ok (some a))
      refine agrees_of_toRat_eq (compute_add options a b) ha ?_
      rw [show b.toRat = 0 from hside, add_zero]
  · rw [add, Inquiry.settle_bind_ok hfind]
    simp only [Inquiry.valueOf_bind, Inquiry.pure_eq, Inquiry.settle_ask_left,
      Inquiry.settle_ask_right, Inquiry.settle_done]
    split
    · rename_i heq
      rw [Value.equals_iff, Value.toRat_neg] at heq
      refine agrees_of_toRat_eq (compute_add options a b) trivial ?_
      rw [heq, neg_add_cancel, Value.toRat_zero]
    · trivial

theorem sub_agrees (costs : Costs) (ha : a.Canonical) (hb : b.Canonical) :
    Agrees options .sub a b ((sub costs).settle a b) := by
  rcases settle_find costs .zero a b with ⟨side, hfind, hside⟩ | ⟨hfind, -, -⟩
  · rw [sub, Inquiry.settle_bind_ok hfind]
    rw [Value.is_zero_iff] at hside
    cases side with
    | left =>
      rw [Inquiry.settle_bind_ok (Inquiry.settle_valueOf _ a b)]
      show Agrees options .sub a b (.ok (some (-b)))
      refine agrees_of_toRat_eq (compute_sub options a b) hb.neg ?_
      rw [Value.toRat_neg, show a.toRat = 0 from hside, zero_sub]
    | right =>
      rw [Inquiry.settle_bind_ok (Inquiry.settle_valueOf _ a b)]
      show Agrees options .sub a b (.ok (some a))
      refine agrees_of_toRat_eq (compute_sub options a b) ha ?_
      rw [show b.toRat = 0 from hside, sub_zero]
  · rw [sub, Inquiry.settle_bind_ok hfind]
    simp only [Inquiry.valueOf_bind, Inquiry.pure_eq, Inquiry.settle_ask_left,
      Inquiry.settle_ask_right, Inquiry.settle_done]
    split
    · rename_i heq
      rw [Value.equals_iff] at heq
      refine agrees_of_toRat_eq (compute_sub options a b) trivial ?_
      rw [heq, sub_self, Value.toRat_zero]
    · trivial

/-- A product with a factor that is an integer, which has no decimals to add. -/
theorem compute_mul_of_pick {side : Side} {n : ℤ} (ha : a.Canonical) (hb : b.Canonical)
    (h : (side.pick a b).toRat = n) :
    compute options .mul a b = .ok (.ofRat (n * (side.other.pick a b).toRat)) := by
  cases side with
  | left =>
    obtain rfl : a = .integer n := ha.eq_integer h
    exact compute_mul options (scalesAdd_integer n b)
  | right =>
    obtain rfl : b = .integer n := hb.eq_integer h
    exact (mul_swap a _).trans (mul_eq_ofRat (scalesAdd_integer n a))

/-- The product that a factor zero, one or minus one leaves. -/
theorem mul_agrees_of_find {side : Side} {l : Landmark} {v : Value} (ha : a.Canonical)
    (hb : b.Canonical) (hside : (side.pick a b).is l = true) (hv : v.Canonical)
    (heq : v.toRat = l.toInt * (side.other.pick a b).toRat) :
    Agrees options .mul a b (.ok (some v)) := by
  rw [Value.is_iff] at hside
  exact agrees_of_toRat_eq (compute_mul_of_pick ha hb hside) hv heq

theorem mul_agrees (costs : Costs) (ha : a.Canonical) (hb : b.Canonical) :
    Agrees options .mul a b ((mul costs).settle a b) := by
  have hpick (side : Side) : (side.pick a b).Canonical := by cases side <;> assumption
  rcases settle_find costs .zero a b with ⟨side, hfind, hside⟩ | ⟨hfind, -, -⟩
  · rw [mul, Inquiry.settle_bind_ok hfind]
    refine mul_agrees_of_find ha hb hside trivial ?_
    rw [Landmark.toInt, Int.cast_zero, zero_mul, Value.toRat_zero]
  · rw [mul, Inquiry.settle_bind_ok hfind]
    simp only [Option.isSome_none, Bool.false_eq_true, if_false]
    rcases settle_find costs .one a b with ⟨side, hone, hside⟩ | ⟨hone, -, -⟩
    · rw [Inquiry.settle_bind_ok hone, Inquiry.settle_bind_ok (Inquiry.settle_valueOf _ a b)]
      refine mul_agrees_of_find ha hb hside (hpick _) ?_
      rw [Landmark.toInt, Int.cast_one, one_mul]
    · rw [Inquiry.settle_bind_ok hone]
      rcases settle_find costs .minusOne a b with ⟨side, hminus, hside⟩ | ⟨hminus, -, -⟩
      · rw [Inquiry.settle_bind_ok hminus, Inquiry.settle_bind_ok (Inquiry.settle_valueOf _ a b)]
        refine mul_agrees_of_find ha hb hside (hpick _).neg ?_
        rw [Landmark.toInt, Int.cast_neg, Int.cast_one, neg_one_mul, Value.toRat_neg]
      · rw [Inquiry.settle_bind_ok hminus]
        trivial

/-- The rules for a divisor that is not zero. -/
theorem divKnown_agrees (ha : a.Canonical) (hb0 : b.toRat ≠ 0) :
    Agrees options .div a b (.ok (divKnown a b)) := by
  have hcompute := compute_div options a b hb0
  rw [divKnown]
  split
  · rename_i hone
    rw [Value.is_one_iff] at hone
    exact agrees_of_toRat_eq hcompute ha (by rw [hone, div_one])
  · split
    · rename_i hminus
      rw [Value.is_minusOne_iff] at hminus
      exact agrees_of_toRat_eq hcompute ha.neg (by rw [hminus, div_neg, div_one, Value.toRat_neg])
    · split
      · rename_i heq
        rw [Value.equals_iff] at heq
        exact agrees_of_toRat_eq hcompute trivial (by rw [heq, div_self hb0, Value.toRat_one])
      · trivial

theorem div_agrees (ha : a.Canonical) :
    Agrees options .div a b ((div options.zeroOverZero).settle a b) := by
  -- a dividend zero over anything else
  have hzero (ha0 : a.toRat = 0) (hb0 : b.toRat ≠ 0) :
      Agrees options .div a b (.ok (some 0)) :=
    agrees_of_toRat_eq (compute_div options a b hb0) trivial
      (by rw [ha0, zero_div, Value.toRat_zero])
  cases hpolicy : options.zeroOverZero with
  | zero =>
    simp only [div, Inquiry.valueOf_bind, Inquiry.settle_ask_left]
    split
    · rename_i ha0
      rw [Value.is_zero_iff] at ha0
      by_cases hb0 : b.toRat = 0
      · show compute options .div a b = .ok 0
        rw [compute_div_zero options a b hb0, if_pos ⟨ha0, hpolicy⟩]
      · exact hzero ha0 hb0
    · rename_i ha0
      rw [Value.is_zero_iff] at ha0
      rw [Inquiry.settle_ask_right]
      split
      · rename_i hb0
        rw [Value.is_zero_iff] at hb0
        show compute options .div a b = .error .divisionByZero
        rw [compute_div_zero options a b hb0, if_neg fun h => ha0 h.1]
      · rename_i hb0
        rw [Value.is_zero_iff] at hb0
        exact divKnown_agrees ha hb0
  | fault =>
    simp only [div, Inquiry.valueOf_bind, Inquiry.settle_ask_right]
    split
    · rename_i hb0
      rw [Value.is_zero_iff] at hb0
      show compute options .div a b = .error .divisionByZero
      rw [compute_div_zero options a b hb0, if_neg (by rw [hpolicy]; simp)]
    · rename_i hb0
      rw [Value.is_zero_iff] at hb0
      rw [Inquiry.settle_ask_left]
      show Agrees options .div a b (.ok (if a.is .zero then some 0 else divKnown a b))
      split
      · rename_i ha0
        rw [Value.is_zero_iff] at ha0
        exact hzero ha0 hb0
      · exact divKnown_agrees ha hb0

theorem pow_agrees (hlimit : 1 ≤ options.limits.exponent) (ha : a.Canonical) :
    Agrees options .pow a b (pow.settle a b) := by
  simp only [pow, Inquiry.valueOf_bind, Inquiry.settle_ask_right]
  split
  · rename_i hb0
    rw [Value.is_zero_iff] at hb0
    exact compute_pow_zero hb0
  · rename_i hb0
    rw [Value.is_zero_iff] at hb0
    rw [Inquiry.settle_ask_left]
    show Agrees options .pow a b
      (.ok (if a.is .zero then some 0 else if b.is .one then some a else none))
    split
    · rename_i ha0
      rw [Value.is_zero_iff] at ha0
      exact compute_zero_pow ha0 hb0
    · rename_i ha0
      rw [Value.is_zero_iff] at ha0
      split
      · rename_i hb1
        rw [Value.is_one_iff] at hb1
        exact compute_pow_one hlimit ha ha0 hb1
      · trivial

/-- Every rule agrees with the full computation; only the power of an exponent one
asks for a limit that admits it. -/
theorem rule_agrees (costs : Costs) (op : Operator) (ha : a.Canonical) (hb : b.Canonical)
    (hlimit : op = .pow → 1 ≤ options.limits.exponent) :
    Agrees options op a b ((rule options costs op).settle a b) := by
  cases op with
  | add => exact add_agrees costs ha hb
  | sub => exact sub_agrees costs ha hb
  | mul => exact mul_agrees costs ha hb
  | div => exact div_agrees ha
  | pow => exact pow_agrees (hlimit rfl) ha

end Shortcut

/-! ## Whole operations -/

namespace Operation

/-- The result of an operation on two known values, when the costs say which of them
is looked at first. -/
def settled (options : Options) (costs : Costs) (op : Operator) (a b : Value) : Outcome :=
  match (plan options costs op).settle a b with
  | .ok operation => (operation.conclude options op).value
  | .error f => .error f

/-- On canonical values an operation is its full computation. -/
theorem settled_eq_compute {options : Options} (costs : Costs) {op : Operator} {a b : Value}
    (ha : a.Canonical) (hb : b.Canonical) (hlimit : op = .pow → 1 ≤ options.limits.exponent) :
    settled options costs op a b = Arithmetic.compute options op a b := by
  have hagrees := Shortcut.rule_agrees costs op ha hb hlimit
  rw [settled, plan]
  cases hrule : (Shortcut.rule options costs op).settle a b with
  | error f =>
    rw [hrule] at hagrees
    rw [Inquiry.settle_bind, hrule]
    exact hagrees.symm
  | ok found =>
    rw [hrule] at hagrees
    cases found with
    | some v =>
      rw [Inquiry.settle_bind_ok hrule]
      exact hagrees.symm
    | none =>
      rw [Inquiry.settle_bind_ok hrule]
      simp only [Inquiry.valueOf_bind, Inquiry.pure_eq, Inquiry.settle_ask_left,
        Inquiry.settle_ask_right, Inquiry.settle_done]
      exact Arithmetic.value_computeTraced options op a b

/-- Of two known values the left one is looked at first. -/
theorem apply_eq_settled (options : Options) (op : Operator) (a b : Value) :
    apply options op a b = settled options knownCosts op a b := by
  rw [apply, applyTraced, settled]
  cases (plan options knownCosts op).settle a b <;> rfl

/-- **The fast path is the slow path.**  On canonical values an operation that tries its
shortcuts first gives the very value or the very fault of the full computation, and it would
whichever operand it looked at first. -/
theorem apply_eq_compute {options : Options} {a b : Value} (ha : a.Canonical) (hb : b.Canonical)
    (hlimit : 1 ≤ options.limits.exponent) (op : Operator) :
    apply options op a b = Arithmetic.compute options op a b ∧
      ∀ costs : Costs, settled options costs op a b = Arithmetic.compute options op a b := by
  have hsettled (costs : Costs) :
      settled options costs op a b = Arithmetic.compute options op a b :=
    settled_eq_compute costs ha hb fun _ => hlimit
  exact ⟨(apply_eq_settled options op a b).trans (hsettled knownCosts), hsettled⟩

/-- Two opposite ratios, which a shortcut adds up to zero. -/
theorem apply_eq_compute_opposites :
    (Value.ratio (2 / 3)).Canonical ∧ (Value.ratio (-2 / 3)).Canonical ∧
      apply {} .add (.ratio (2 / 3)) (.ratio (-2 / 3)) = .ok 0 ∧
      Arithmetic.compute {} .add (.ratio (2 / 3)) (.ratio (-2 / 3)) = .ok 0 := by
  have hleft : (Value.ratio (2 / 3)).Canonical := Value.canonical_of_three_dvd (by norm_num)
  have hright : (Value.ratio (-2 / 3)).Canonical := Value.canonical_of_three_dvd (by norm_num)
  have happly : apply {} .add (.ratio (2 / 3)) (.ratio (-2 / 3)) = .ok 0 := by decide +kernel
  refine ⟨hleft, hright, happly, ?_⟩
  rw [← (apply_eq_compute hleft hright (by decide) .add).1, happly]

-- a decimal with a trailing zero is not canonical: the shortcut leaves it as it is written
example : apply {} .add (.decimal ⟨150, 2⟩) 0 ≠
    Arithmetic.compute {} .add (.decimal ⟨150, 2⟩) 0 := by decide +kernel

-- no exponent is within a limit of zero, but the shortcut for the exponent one does not ask
example : apply { limits := { exponent := 0 } } .pow 2 1 ≠
    Arithmetic.compute { limits := { exponent := 0 } } .pow 2 1 := by decide +kernel

end Operation
end Reckoner

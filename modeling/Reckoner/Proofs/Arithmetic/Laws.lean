import Mathlib
import Reckoner.Proofs.Arithmetic.Shortcut

/-!
# Exact results and the laws of arithmetic

The four operations are exact on all values, however they are written: `Exact` says
which number comes out, that it is written canonically, and when a division fails.
The one exception is a product of decimals whose scales add up to more than a word
holds: it is off by a fixed power of ten (`Exact.mul_wraps`), as in
`square_of_tiny_decimal`.

Since a canonical value is the only one for its number, the laws of the rational
numbers become equations between the values themselves: `Lawful` states them for
whole operations, shortcuts included.  Both are proved in `exact_and_lawful`.
-/

namespace Reckoner
namespace Arithmetic

/-- The outcome is the canonical value of a number. -/
def Yields (o : Outcome) (q : Rat) : Prop := ∃ v : Value, o = .ok v ∧ v.Canonical ∧ v.toRat = q

/-- A word has room for the scale of the product. -/
def FitsProduct (a b : Value) : Prop := a.scale + b.scale < wordCount

instance (a b : Value) : Decidable (FitsProduct a b) := inferInstanceAs (Decidable (_ < _))

/-- The four operations on two values are exact, apart from a product that its scale
has no room for, and only a division by zero can fail. -/
structure Exact (options : Options) (a b : Value) : Prop where
  add : Yields (compute options .add a b) (a.toRat + b.toRat)
  sub : Yields (compute options .sub a b) (a.toRat - b.toRat)
  mul : FitsProduct a b → Yields (compute options .mul a b) (a.toRat * b.toRat)
  mul_wraps : a.scale < wordCount → b.scale < wordCount →
    ¬ FitsProduct a b →
      Yields (compute options .mul a b) (a.toRat * b.toRat * 10 ^ wordCount)
  div : b.toRat ≠ 0 → Yields (compute options .div a b) (a.toRat / b.toRat)
  div_zero : b.toRat = 0 → compute options .div a b =
    if a.toRat = 0 ∧ options.zeroOverZero = .zero then .ok 0 else .error .divisionByZero

/-- The two outcomes are one and the same value. -/
def SameValue (x y : Outcome) : Prop := ∃ v : Value, x = .ok v ∧ y = .ok v

/-- The laws of a field, as equations between values.  The products that a law compares
must all have room for their scales. -/
structure Lawful (options : Options) (a b c : Value) : Prop where
  add_comm : SameValue (Operation.apply options .add a b) (Operation.apply options .add b a)
  mul_comm : SameValue (Operation.apply options .mul a b) (Operation.apply options .mul b a)
  add_assoc : SameValue
    (Operation.apply options .add a b >>= fun s => Operation.apply options .add s c)
    (Operation.apply options .add b c >>= fun s => Operation.apply options .add a s)
  mul_assoc : FitsProduct a b → FitsProduct (.ofRat (a.toRat * b.toRat)) c →
    FitsProduct b c → FitsProduct a (.ofRat (b.toRat * c.toRat)) → SameValue
    (Operation.apply options .mul a b >>= fun p => Operation.apply options .mul p c)
    (Operation.apply options .mul b c >>= fun p => Operation.apply options .mul a p)
  mul_add : FitsProduct a (.ofRat (b.toRat + c.toRat)) → FitsProduct a b → FitsProduct a c →
    SameValue
    (Operation.apply options .add b c >>= fun s => Operation.apply options .mul a s)
    (Operation.apply options .mul a b >>= fun x =>
      Operation.apply options .mul a c >>= fun y => Operation.apply options .add x y)
  div_mul_cancel : b.toRat ≠ 0 → FitsProduct (.ofRat (a.toRat / b.toRat)) b →
    (Operation.apply options .div a b >>= fun q => Operation.apply options .mul q b) = .ok a

/-! ## Exactness -/

theorem Yields.toRat_eq {v : Value} {q : Rat} (h : Yields (.ok v) q) : v.toRat = q := by
  obtain ⟨w, hw, -, hnumber⟩ := h
  rw [Except.ok.inj hw, hnumber]

theorem yields_ofRat (q : Rat) : Yields (.ok (.ofRat q)) q :=
  ⟨_, rfl, Value.canonical_ofRat q, Value.toRat_ofRat q⟩

section

variable {a b : Value}

theorem FitsProduct.scalesAdd (h : FitsProduct a b) : ScalesAdd a b :=
  Decimal.productScale_of_lt h

/-- A value with decimals on its face is a decimal. -/
theorem exists_of_scale_ne_zero {v : Value} (h : v.scale ≠ 0) : ∃ d, v = .decimal d := by
  cases v with
  | integer n => exact absurd rfl h
  | decimal d => exact ⟨d, rfl⟩
  | ratio q => exact absurd rfl h

/-- What is carried out of the scale is missing below the fraction stroke. -/
theorem yields_mul_wraps (options : Options) (ha : a.scale < wordCount)
    (hb : b.scale < wordCount) (h : ¬ FitsProduct a b) :
    Yields (compute options .mul a b) (a.toRat * b.toRat * 10 ^ wordCount) := by
  have hle : wordCount ≤ a.scale + b.scale := Nat.not_lt.1 h
  obtain ⟨x, rfl⟩ := exists_of_scale_ne_zero (v := a) (by omega)
  obtain ⟨y, rfl⟩ := exists_of_scale_ne_zero (v := b) (by omega)
  refine ⟨_, rfl, Value.canonical_ofDecimal _, ?_⟩
  rw [Value.toRat_ofDecimal, Value.toRat, Value.toRat]
  exact Decimal.toRat_mul_of_ge ha hb hle

end

theorem exact (options : Options) (a b : Value) : Exact options a b where
  add := compute_add options a b ▸ yields_ofRat _
  sub := compute_sub options a b ▸ yields_ofRat _
  mul h := compute_mul options h.scalesAdd ▸ yields_ofRat _
  mul_wraps := yields_mul_wraps options
  div hb := compute_div options a b hb ▸ yields_ofRat _
  div_zero hb := compute_div_zero options a b hb

/-! ## Laws -/

section

variable {options : Options} {a b c : Value}

theorem apply_add (ha : a.Canonical) (hb : b.Canonical) :
    Operation.apply options .add a b = .ok (.ofRat (a.toRat + b.toRat)) := by
  rw [Operation.apply_eq_settled, Operation.settled_eq_compute _ ha hb (by simp), compute_add]

theorem apply_mul_eq (ha : a.Canonical) (hb : b.Canonical) :
    Operation.apply options .mul a b = mul a b := by
  rw [Operation.apply_eq_settled, Operation.settled_eq_compute _ ha hb (by simp), compute]

theorem apply_mul (ha : a.Canonical) (hb : b.Canonical) (h : FitsProduct a b) :
    Operation.apply options .mul a b = .ok (.ofRat (a.toRat * b.toRat)) := by
  rw [apply_mul_eq ha hb, mul_eq_ofRat h.scalesAdd]

theorem apply_div (ha : a.Canonical) (hb : b.Canonical) (hb0 : b.toRat ≠ 0) :
    Operation.apply options .div a b = .ok (.ofRat (a.toRat / b.toRat)) := by
  rw [Operation.apply_eq_settled, Operation.settled_eq_compute _ ha hb (by simp),
    compute_div options a b hb0]

/-- A step of a calculation that has succeeded hands its value to the next one. -/
theorem ok_bind (v : Value) (f : Value → Outcome) : ((.ok v : Outcome) >>= f) = f v := rfl

/-- A product that loses part of its scale is still the same both ways round. -/
theorem sameValue_mul_swap (a b : Value) : SameValue (mul a b) (mul b a) := by
  obtain ⟨v, hv⟩ := exists_mul_eq_ok a b
  exact ⟨v, hv, (mul_swap b a).trans hv⟩

theorem lawful (ha : a.Canonical) (hb : b.Canonical) (hc : c.Canonical) :
    Lawful options a b c where
  add_comm := ⟨_, apply_add ha hb, by rw [apply_add hb ha, add_comm]⟩
  mul_comm := by
    rw [apply_mul_eq ha hb, apply_mul_eq hb ha]
    exact sameValue_mul_swap a b
  add_assoc := by
    rw [apply_add ha hb, apply_add hb hc, ok_bind, ok_bind,
      apply_add (Value.canonical_ofRat _) hc, apply_add ha (Value.canonical_ofRat _)]
    exact ⟨_, rfl, by rw [Value.toRat_ofRat, Value.toRat_ofRat, add_assoc]⟩
  mul_assoc hab habc hbc habc' := by
    rw [apply_mul ha hb hab, apply_mul hb hc hbc, ok_bind, ok_bind,
      apply_mul (Value.canonical_ofRat _) hc habc, apply_mul ha (Value.canonical_ofRat _) habc']
    exact ⟨_, rfl, by rw [Value.toRat_ofRat, Value.toRat_ofRat, mul_assoc]⟩
  mul_add hsum hab hac := by
    rw [apply_add hb hc, apply_mul ha hb hab, apply_mul ha hc hac, ok_bind, ok_bind, ok_bind,
      apply_mul ha (Value.canonical_ofRat _) hsum,
      apply_add (Value.canonical_ofRat _) (Value.canonical_ofRat _)]
    exact ⟨_, rfl, by simp only [Value.toRat_ofRat, mul_add]⟩
  div_mul_cancel hb0 hfits := by
    rw [apply_div ha hb hb0, ok_bind, apply_mul (Value.canonical_ofRat _) hb hfits,
      Value.toRat_ofRat, div_mul_cancel₀ _ hb0, Value.ofRat_toRat ha]

end

end Arithmetic
end Reckoner

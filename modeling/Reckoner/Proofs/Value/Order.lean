import Mathlib
import Reckoner.Proofs.Grammar.Reread

/-!
# The order of values

A comparison looks at the signs first and multiplies crosswise only where they agree, and there
are three representations on either side of it.  All of it is one order, that of the numbers
(`compare_eq_cmp`):

* it is total, antisymmetric under a swap and transitive (`TransCmp Value.compare`);
* the sign is the comparison with zero (`compare_zero`), the opposite turns the order around
  (`compare_neg_neg`), and the magnitude is the larger one of a value and its opposite
  (`toRat_abs`, `abs_eq_or`, `isLE_compare_abs`);
* equal in this order means the same number, and on canonical values the same value with the same
  text (`Canonical.equals_iff_eq`, `Canonical.eq_iff_text_eq`).

`compare_orders_numbers` puts these together.
-/

namespace Reckoner
namespace Value

/-! ## A total preorder -/

theorem isLE_compare_iff (a b : Value) : (a.compare b).isLE = true ↔ a.toRat ≤ b.toRat := by
  rw [compare_eq_cmp]
  rcases lt_trichotomy a.toRat b.toRat with hlt | heq | hgt
  · simp [(cmp_eq_lt_iff _ _).2 hlt, hlt.le]
  · simp [heq]
  · simp [(cmp_eq_gt_iff _ _).2 hgt, hgt]

theorem compare_swap (a b : Value) : (a.compare b).swap = b.compare a := by
  rw [compare_eq_cmp, compare_eq_cmp, cmp_swap]

instance : Std.TransCmp Value.compare where
  eq_swap {a b} := (compare_swap b a).symm
  isLE_trans {a b c} hab hbc := by
    rw [isLE_compare_iff] at hab hbc ⊢
    exact hab.trans hbc

theorem isLE_compare_total (a b : Value) :
    (a.compare b).isLE = true ∨ (b.compare a).isLE = true := by
  rw [isLE_compare_iff, isLE_compare_iff]
  exact le_total _ _

/-! ## Signs and opposites -/

/-- The sign is the comparison with zero. -/
theorem compare_zero (a : Value) : a.compare 0 = cmp a.sign 0 := by
  rw [compare_eq_cmp, toRat_zero, sign_eq]
  rcases lt_trichotomy a.toRat 0 with hneg | hzero | hpos
  · rw [(cmp_eq_lt_iff _ _).2 hneg, sign_neg hneg]
    rfl
  · rw [hzero, sign_zero, cmp_self_eq_eq]
    rfl
  · rw [(cmp_eq_gt_iff _ _).2 hpos, sign_pos hpos]
    rfl

/-- A smaller number does not have the larger sign. -/
theorem sign_le_sign {a b : Value} (h : (a.compare b).isLE = true) : a.sign ≤ b.sign := by
  by_contra hlt
  exact absurd ((isLE_compare_iff a b).1 h) (not_le.2 (toRat_lt_of_sign_lt (not_le.1 hlt)))

theorem sign_neg_eq (a : Value) : (-a).sign = -a.sign := by
  rw [sign_eq, sign_eq, toRat_neg, Left.sign_neg, SignType.coe_neg]

/-- The opposite turns the order around. -/
theorem compare_neg_neg (a b : Value) : (-a).compare (-b) = b.compare a := by
  have hanti : StrictAnti fun q : ℚ => -q := fun _ _ h => neg_lt_neg h
  rw [compare_eq_cmp, compare_eq_cmp, toRat_neg, toRat_neg]
  exact hanti.cmp_map_eq _ _

theorem sign_lt_zero_iff (a : Value) : a.sign < 0 ↔ a.toRat < 0 := by
  rw [← cmp_eq_lt_iff, ← compare_zero, compare_eq_cmp, toRat_zero, cmp_eq_lt_iff]

/-! ## Magnitudes -/

theorem abs_eq_or (a : Value) : a.abs = a ∨ a.abs = -a := by
  unfold abs
  split
  · exact .inr rfl
  · exact .inl rfl

theorem toRat_abs (a : Value) : a.abs.toRat = |a.toRat| := by
  unfold abs
  by_cases hneg : a.sign < 0
  · rw [if_pos hneg, toRat_neg, abs_of_neg ((sign_lt_zero_iff a).1 hneg)]
  · rw [sign_lt_zero_iff] at hneg
    rw [if_neg (by rwa [sign_lt_zero_iff]), abs_of_nonneg (not_lt.1 hneg)]

/-- A value is not larger than its magnitude. -/
theorem isLE_compare_abs (a : Value) : (a.compare a.abs).isLE = true := by
  rw [isLE_compare_iff, toRat_abs]
  exact le_abs_self _

/-- Neither is its opposite. -/
theorem isLE_compare_neg_abs (a : Value) : ((-a).compare a.abs).isLE = true := by
  rw [isLE_compare_iff, toRat_abs, toRat_neg]
  exact neg_le_abs _

/-! ## Canonical values -/

theorem Canonical.equals_iff_eq {a b : Value} (ha : a.Canonical) (hb : b.Canonical) :
    a.equals b = true ↔ a = b := by
  rw [equals_iff]
  constructor
  · exact eq_of_toRat_eq ha hb
  · rintro rfl
    rfl

theorem Canonical.eq_iff_text_eq {a b : Value} (ha : a.Canonical) (hb : b.Canonical) :
    a = b ↔ a.text = b.text := by
  constructor
  · rintro rfl
    rfl
  · exact text_injective ha hb

/-! ## One order -/

/-- **The order of values** is the order of the numbers that they are, whatever their
representations.  It is a total preorder; it goes with the sign, with the opposite, which turns it
around, and with the magnitude; the landmark tests tell which values are zero, one and minus one;
and canonical values that are equal in it are the same value, with the same text. -/
theorem compare_orders_numbers (a b c : Value) :
    a.compare b = cmp a.toRat b.toRat ∧
    (a.compare b = (b.compare a).swap ∧
      ((a.compare b).isLE = true ∨ (b.compare a).isLE = true) ∧
      ((a.compare b).isLE = true → (b.compare c).isLE = true → (a.compare c).isLE = true)) ∧
    (a.sign = SignType.sign a.toRat ∧ a.compare 0 = cmp a.sign 0 ∧
      ((a.compare b).isLE = true → a.sign ≤ b.sign)) ∧
    ((-a).toRat = -a.toRat ∧ (-a).sign = -a.sign ∧ (-a).compare (-b) = b.compare a) ∧
    (a.abs.toRat = |a.toRat| ∧ (a.abs = a ∨ a.abs = -a) ∧
      (a.compare a.abs).isLE = true ∧ ((-a).compare a.abs).isLE = true) ∧
    ((a.is .zero = true ↔ a.toRat = 0) ∧ (a.is .one = true ↔ a.toRat = 1) ∧
      (a.is .minusOne = true ↔ a.toRat = -1)) ∧
    (a.Canonical → b.Canonical →
      (a.equals b = true ↔ a = b) ∧ (a = b ↔ a.text = b.text)) := by
  refine ⟨compare_eq_cmp a b, ⟨(compare_swap b a).symm, isLE_compare_total a b,
      Std.TransCmp.isLE_trans⟩, ⟨sign_eq a, compare_zero a, sign_le_sign⟩,
    ⟨toRat_neg a, sign_neg_eq a, compare_neg_neg a b⟩,
    ⟨toRat_abs a, abs_eq_or a, isLE_compare_abs a, isLE_compare_neg_abs a⟩,
    ⟨is_zero_iff a, is_one_iff a, is_minusOne_iff a⟩, fun ha hb => ?_⟩
  exact ⟨ha.equals_iff_eq hb, ha.eq_iff_text_eq hb⟩

/-- Three representations in order: `-2/3`, `-0.5` and `1`. -/
theorem compare_orders_numbers_three_representations :
    (ratio (-2 / 3)).Canonical ∧ (decimal ⟨-5, 1⟩).Canonical ∧
      (ratio (-2 / 3)).compare (decimal ⟨-5, 1⟩) = .lt ∧
      (decimal ⟨-5, 1⟩).compare (integer 1) = .lt ∧
      ((ratio (-2 / 3)).compare (integer 1)).isLE = true ∧
      (ratio (-2 / 3)).sign ≤ (decimal ⟨-5, 1⟩).sign ∧
      ¬ (ratio (-2 / 3)).text = (decimal ⟨-5, 1⟩).text := by
  have hratio : (ratio (-2 / 3)).Canonical := canonical_of_three_dvd (by norm_num)
  have hdecimal : (decimal ⟨-5, 1⟩).Canonical := ⟨by decide, by decide⟩
  have hfirst : (ratio (-2 / 3)).compare (decimal ⟨-5, 1⟩) = .lt := by decide +kernel
  have hsecond : (decimal ⟨-5, 1⟩).compare (integer 1) = .lt := by decide
  obtain ⟨-, ⟨-, -, htrans⟩, ⟨-, -, hsign⟩, -, -, -, hcanonical⟩ :=
    compare_orders_numbers (ratio (-2 / 3)) (decimal ⟨-5, 1⟩) (integer 1)
  refine ⟨hratio, hdecimal, hfirst, hsecond, htrans ?_ ?_, hsign ?_, fun htext => ?_⟩
  · rw [hfirst]
    rfl
  · rw [hsecond]
    rfl
  · rw [hfirst]
    rfl
  · cases (hcanonical hratio hdecimal).2.2 htext

end Value
end Reckoner

import Mathlib
import Reckoner.FixedPoint.Widening

/-!
# Widening

What the widening loop gives was computed at some width between the first one and the limit, with
enough digits or at the limit (`widenFrom_spec`).  The loop looks at the known digits only, so two
calculations whose results correspond and know the same digits are widened alike (`widenFrom_map`).
-/

namespace Reckoner
namespace FixedPoint

variable {α β : Type} (compute : ℕ → α × ℕ)

/-- What comes out was computed at some width, between the first one and the limit, at which the
loop may stop: enough digits are known there, or the limit is reached. -/
theorem widenFrom_spec (wanted limit w : ℕ) :
    ∃ w', w ≤ w' ∧ w' ≤ max w limit ∧ (wanted ≤ (compute w').2 ∨ limit ≤ w') ∧
      widenFrom compute wanted limit w = ((compute w').1, w') := by
  fun_induction widenFrom compute wanted limit w with
  | case1 w v known hcompute hdone =>
    refine ⟨w, le_rfl, le_max_left w limit, ?_, by rw [hcompute]⟩
    rwa [hcompute]
  | case2 w v known hcompute hdone ih =>
    rw [not_or, Nat.not_le, Nat.not_le] at hdone
    obtain ⟨w', hlow, hhigh, hstop, hresult⟩ := ih
    exact ⟨w', by omega, by omega, hstop, hresult⟩

/-- Whatever the sizes, the result was computed at some width. -/
theorem exists_widen_eq (precision w : ℕ) :
    ∃ w', widen precision w compute = ((compute w').1, w') := by
  obtain ⟨w', -, -, -, hresult⟩ := widenFrom_spec compute (wantedDigits precision)
    (widthLimit precision w) w
  exact ⟨w', hresult⟩

theorem widthLimit_of_lt {precision w : ℕ} (h : w + 4 * (precision + guardDigits) < sizeCount) :
    widthLimit precision w = w + 4 * (precision + guardDigits) := toSize_of_lt h

/-- As long as the limit is a size, the width is between the first one and the limit. -/
theorem widen_spec {precision w : ℕ} (h : w + 4 * (precision + guardDigits) < sizeCount) :
    ∃ w', w ≤ w' ∧ w' ≤ widthLimit precision w ∧
      (wantedDigits precision ≤ (compute w').2 ∨ w' = widthLimit precision w) ∧
      widen precision w compute = ((compute w').1, w') := by
  obtain ⟨w', hlow, hhigh, hstop, hresult⟩ := widenFrom_spec compute (wantedDigits precision)
    (widthLimit precision w) w
  have hlimit : w ≤ widthLimit precision w := by
    rw [widthLimit_of_lt h]
    exact Nat.le_add_right w _
  rw [max_eq_right hlimit] at hhigh
  exact ⟨w', hlow, hhigh, hstop.imp_right (hhigh.antisymm ·), hresult⟩

/-- A result with enough digits at the first width is not computed again. -/
theorem widenFrom_of_known {wanted limit w : ℕ} (h : wanted ≤ (compute w).2) :
    widenFrom compute wanted limit w = ((compute w).1, w) := by
  rw [widenFrom]
  exact if_pos (.inl h)

/-- Changing the result of a calculation, but not its known digits, changes the result that is
accepted, and not its width. -/
theorem widenFrom_map (f : α → β) (wanted limit w : ℕ) :
    widenFrom (fun w => (f (compute w).1, (compute w).2)) wanted limit w =
      (f (widenFrom compute wanted limit w).1, (widenFrom compute wanted limit w).2) := by
  fun_induction widenFrom compute wanted limit w with
  | case1 w v known hcompute hdone =>
    rw [widenFrom, hcompute]
    exact if_pos hdone
  | case2 w v known hcompute hdone ih =>
    rw [widenFrom, hcompute, ← ih]
    exact if_neg hdone

theorem widen_map (f : α → β) (precision w : ℕ) :
    widen precision w (fun w => (f (compute w).1, (compute w).2)) =
      (f (widen precision w compute).1, (widen precision w compute).2) :=
  widenFrom_map compute f _ _ w

end FixedPoint
end Reckoner

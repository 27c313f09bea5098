import Mathlib.Algebra.BigOperators.Group.Finset.Basic
import Mathlib.Algebra.Order.Group.MinMax
import Mathlib.Data.Nat.SuccPred
import Mathlib.Order.PartialSups

/-!
# Climbing a sequence

Following a sequence from term to term without ever going down climbs by every rise
(`climb`). That is never less than the way up to the highest term so far (`height`,
`height_le_climb`), and is the same all along exactly when every rise starts from a highest
term (`climb_eq_height_iff`).
-/

namespace Climb

variable {α : Type} [AddCommGroup α] [LinearOrder α]

/-- The rises from one term to the next, up to term `k`. -/
def climb (f : ℕ → α) (k : ℕ) : α := ∑ i ∈ Finset.range k, max 0 (f (i + 1) - f i)

/-- How far the highest term up to `k` lies above the first. -/
def height (f : ℕ → α) (k : ℕ) : α := partialSups (fun i => f i - f 0) k

@[simp] theorem climb_zero (f : ℕ → α) : climb f 0 = 0 := Finset.sum_range_zero _

theorem climb_succ (f : ℕ → α) (k : ℕ) :
    climb f (k + 1) = climb f k + max 0 (f (k + 1) - f k) := Finset.sum_range_succ _ k

@[simp] theorem height_zero (f : ℕ → α) : height f 0 = 0 := by
  simp [height]

theorem height_succ (f : ℕ → α) (k : ℕ) :
    height f (k + 1) = max (height f k) (f (k + 1) - f 0) :=
  partialSups_succ _ k

/-- No term so far lies higher. -/
theorem sub_le_height (f : ℕ → α) {j k : ℕ} (hjk : j ≤ k) : f j - f 0 ≤ height f k :=
  le_partialSups_of_le (fun i => f i - f 0) hjk

section

variable [IsOrderedAddMonoid α]

/-- The height of a highest term is its own. -/
theorem height_eq {f : ℕ → α} {k : ℕ} (hhighest : ∀ j ≤ k, f j ≤ f k) :
    height f k = f k - f 0 := by
  apply le_antisymm
  · exact partialSups_le _ k _ fun j hj => sub_le_sub_right (hhighest j hj) _
  · exact sub_le_height f le_rfl

/-- A rise takes the climb at least as much further as the height. -/
theorem height_le_climb (f : ℕ → α) (k : ℕ) : height f k ≤ climb f k := by
  induction k with
  | zero => simp
  | succ k ih =>
    rw [height_succ, climb_succ]
    apply max_le
    · exact le_add_of_le_of_nonneg ih (le_max_left _ _)
    · have hterm := (sub_le_height f (le_refl k)).trans ih
      calc f (k + 1) - f 0 = (f k - f 0) + (f (k + 1) - f k) := (sub_add_sub_cancel' ..).symm
        _ ≤ climb f k + max 0 (f (k + 1) - f k) := add_le_add hterm (le_max_right _ _)

/-- While every rise starts from a highest term, the climb is the height. -/
theorem climb_eq_height {f : ℕ → α} {n : ℕ}
    (h : ∀ k < n, f k < f (k + 1) → ∀ j ≤ k, f j ≤ f k) :
    ∀ k ≤ n, climb f k = height f k := by
  intro k
  induction k with
  | zero => simp
  | succ k ih =>
    intro hk
    rw [climb_succ, height_succ, ih (by omega)]
    rcases lt_or_ge (f k) (f (k + 1)) with hrise | hfall
    · -- the next term is above the highest so far, which is this one
      rw [height_eq (h k hk hrise), max_eq_right (sub_nonneg.mpr hrise.le),
        max_eq_right (sub_le_sub_right hrise.le _)]
      exact sub_add_sub_cancel' ..
    · have hbelow : f (k + 1) - f 0 ≤ height f k :=
        (sub_le_sub_right hfall _).trans (sub_le_height f le_rfl)
      rw [max_eq_left (sub_nonpos.mpr hfall), max_eq_left hbelow, add_zero]

/-- A rise from a term below an earlier one takes the climb further than the height. -/
theorem height_lt_climb {f : ℕ → α} {k : ℕ} (hrise : f k < f (k + 1)) {j : ℕ} (hjk : j ≤ k)
    (hbelow : f k < f j) : height f (k + 1) < climb f (k + 1) := by
  have hheight : f k - f 0 < height f k :=
    (sub_lt_sub_right hbelow _).trans_le (sub_le_height f hjk)
  have hclimb := height_le_climb f k
  rw [height_succ, climb_succ, max_eq_right (sub_nonneg.mpr hrise.le)]
  apply max_lt
  · exact lt_add_of_le_of_pos hclimb (sub_pos.mpr hrise)
  · calc f (k + 1) - f 0 = (f k - f 0) + (f (k + 1) - f k) := (sub_add_sub_cancel' ..).symm
      _ < climb f k + (f (k + 1) - f k) := add_lt_add_left (hheight.trans_le hclimb) _

/-- **Climb and height** agree all along exactly when every rise starts from a highest
term. -/
theorem climb_eq_height_iff {f : ℕ → α} {n : ℕ} :
    (∀ k ≤ n, climb f k = height f k) ↔ ∀ k < n, f k < f (k + 1) → ∀ j ≤ k, f j ≤ f k := by
  refine ⟨?_, climb_eq_height⟩
  intro h k hk hrise j hjk
  by_contra hbelow
  exact absurd (h (k + 1) hk) (height_lt_climb hrise hjk (not_le.mp hbelow)).ne'

end

end Climb

/-
  MpiRma/Placement.lean
  =====================
  **Items placed one after the other.**  Each item of a list gets a weight and starts
  where the items before it end.  The intervals of the items are then disjoint, lie in
  the total, and leave no gap.  An item of weight zero takes part in the order only.
-/
import Mathlib.Algebra.BigOperators.Group.List.Basic
import Mathlib.Algebra.Order.Ring.Nat

namespace MpiRma.Placement

variable {α : Type} (weight : α → Nat)

/-- The sum of the weights; of the items before one item, its start. -/
def total (items : List α) : Nat := (items.map weight).sum

@[simp] theorem total_nil : total weight [] = 0 := rfl

theorem total_append (xs ys : List α) :
    total weight (xs ++ ys) = total weight xs + total weight ys := by
  simp [total]

@[simp] theorem total_singleton (x : α) : total weight [x] = weight x := by
  simp [total]

/-- The order of the items does not change the total. -/
theorem total_perm {xs ys : List α} (h : xs.Perm ys) : total weight xs = total weight ys :=
  (h.map weight).sum_eq

/-- The next item starts where this one ends. -/
theorem total_take_succ {items : List α} {i : Nat} (h : i < items.length) :
    total weight (items.take (i + 1)) = total weight (items.take i) + weight items[i] := by
  rw [← List.take_append_getElem h, total_append, total_singleton]

theorem total_take_le {items : List α} {i j : Nat} (h : i ≤ j) :
    total weight (items.take i) ≤ total weight (items.take j) := by
  have hsplit := List.take_append_drop i (items.take j)
  rw [List.take_take, Nat.min_eq_left h] at hsplit
  rw [← hsplit, total_append]
  exact Nat.le_add_right _ _

/-- An item ends before every later item starts. -/
theorem apart {items : List α} {i j : Nat} (hij : i < j) (hi : i < items.length) :
    total weight (items.take i) + weight items[i] ≤ total weight (items.take j) := by
  rw [← total_take_succ weight hi]
  exact total_take_le weight hij

/-- An item ends inside the total. -/
theorem inside {items : List α} {i : Nat} (hi : i < items.length) :
    total weight (items.take i) + weight items[i] ≤ total weight items := by
  have := apart weight hi hi
  rwa [List.take_length] at this

/-- Every place of the total belongs to an item. -/
theorem tiles {items : List α} {x : Nat} (hx : x < total weight items) :
    ∃ i, ∃ h : i < items.length,
      total weight (items.take i) ≤ x ∧ x < total weight (items.take i) + weight items[i] := by
  have hend : x < total weight (items.take items.length) := by rwa [List.take_length]
  obtain ⟨k, hle, hend⟩ : ∃ k, k ≤ items.length ∧ x < total weight (items.take k) :=
    ⟨_, le_refl _, hend⟩
  -- walk back from the end to the item that starts at or before `x`
  induction k with
  | zero => simp at hend
  | succ k ih =>
    have hk : k < items.length := hle
    by_cases hstart : total weight (items.take k) ≤ x
    · refine ⟨k, hk, hstart, ?_⟩
      rwa [total_take_succ weight hk] at hend
    · exact ih (by omega) (by omega)

end MpiRma.Placement

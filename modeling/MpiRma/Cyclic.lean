/-
  MpiRma/Cyclic.lean
  ==================
  **Numbered writes into a cycle of cells.**  Writes are numbered 1, 2, 3, ... and write `q`
  goes to cell `(q - 1) % depth`.  After `count` writes a cell holds the greatest number
  that goes to it, `newest`; the numbers a cell may hold lie within one turn of `count`,
  and what a cell holds only grows.
-/
import Mathlib.Algebra.Order.Ring.Nat

namespace MpiRma.Cyclic

def cell (depth number : Nat) : Nat := (number - 1) % depth

/-- The number a cell holds after the writes `1 .. count`; zero when it was never written. -/
def newest (depth count place : Nat) : Nat :=
  if count ≤ place then 0 else count - (count - 1 - place) % depth

section

variable {depth count place : Nat}

theorem cell_lt (hdepth : 0 < depth) (number : Nat) : cell depth number < depth :=
  Nat.mod_lt _ hdepth

theorem newest_le (depth count place : Nat) : newest depth count place ≤ count := by
  unfold newest
  split
  · exact Nat.zero_le _
  · exact Nat.sub_le _ _

theorem newest_empty (h : count ≤ place) : newest depth count place = 0 := if_pos h

/-- A written cell holds a number of its own, at most one turn old. -/
theorem newest_written (hdepth : 0 < depth) (hplace : place < depth) (h : place < count) :
    0 < newest depth count place ∧ cell depth (newest depth count place) = place ∧
      count < newest depth count place + depth := by
  have hlt : (count - 1 - place) % depth < depth := Nat.mod_lt _ hdepth
  have hle : (count - 1 - place) % depth ≤ count - 1 - place := Nat.mod_le _ _
  have hnewest : newest depth count place = count - (count - 1 - place) % depth :=
    if_neg (by omega)
  refine ⟨by omega, ?_, by omega⟩
  have hsplit := Nat.div_add_mod (count - 1 - place) depth
  have hback : newest depth count place - 1 = place + depth * ((count - 1 - place) / depth) := by
    rw [hnewest]
    omega
  rw [cell, hback, Nat.add_mul_mod_self_left, Nat.mod_eq_of_lt hplace]

/-- Two numbers of one cell less than a turn apart are equal. -/
theorem cell_unique {a b : Nat} (ha : 0 < a) (hb : 0 < b) (hcell : cell depth a = cell depth b)
    (hab : a < b + depth) (hba : b < a + depth) : a = b := by
  unfold cell at hcell
  rcases Nat.le_total a b with h | h
  · have hmod : (b - 1 - (a - 1)) % depth = 0 := Nat.sub_mod_eq_zero_of_mod_eq hcell.symm
    have hsmall : (b - 1 - (a - 1)) % depth = b - 1 - (a - 1) := Nat.mod_eq_of_lt (by omega)
    omega
  · have hmod : (a - 1 - (b - 1)) % depth = 0 := Nat.sub_mod_eq_zero_of_mod_eq hcell
    have hsmall : (a - 1 - (b - 1)) % depth = a - 1 - (b - 1) := Nat.mod_eq_of_lt (by omega)
    omega

/-- The number of a cell within one turn of `count` is the one it holds. -/
theorem newest_eq (hdepth : 0 < depth) {number : Nat} (h0 : 0 < number) (hle : number ≤ count)
    (hturn : count < number + depth) : newest depth count (cell depth number) = number := by
  have hcell := cell_lt hdepth number
  have hplace : cell depth number < count := by
    have : cell depth number ≤ number - 1 := Nat.mod_le _ _
    omega
  obtain ⟨h1, h2, h3⟩ := newest_written hdepth hcell hplace
  have hle' := newest_le depth count (cell depth number)
  exact cell_unique h1 h0 h2 (by omega) (by omega)

/-- A greater number of the same cell is at least a turn later. -/
theorem turn_le {a b : Nat} (ha : 0 < a) (hcell : cell depth a = cell depth b) (h : a < b) :
    a + depth ≤ b := by
  by_contra hlt
  have := cell_unique ha (by omega) hcell (by omega) (by omega)
  omega

/-- What a cell holds only grows. -/
theorem newest_mono (hdepth : 0 < depth) (hplace : place < depth) {count' : Nat}
    (h : count ≤ count') : newest depth count place ≤ newest depth count' place := by
  by_cases hwritten : place < count
  · obtain ⟨h1, h2, h3⟩ := newest_written hdepth hplace hwritten
    obtain ⟨h1', h2', h3'⟩ := newest_written hdepth hplace (Nat.lt_of_lt_of_le hwritten h)
    have hle := newest_le depth count place
    by_contra hlt
    have := cell_unique h1 h1' (h2.trans h2'.symm) (by omega) (by omega)
    omega
  · rw [newest_empty (by omega)]
    exact Nat.zero_le _

/-- A number that was written is still there or was overwritten. -/
theorem le_newest (hdepth : 0 < depth) {number : Nat} (h0 : 0 < number) (hle : number ≤ count) :
    number ≤ newest depth count (cell depth number) := by
  have h := newest_mono hdepth (cell_lt hdepth number) hle
  rwa [newest_eq hdepth h0 (le_refl _) (by omega)] at h

/-- A turn later it has been overwritten. -/
theorem lt_newest (hdepth : 0 < depth) {number : Nat} (hle : number + depth ≤ count) :
    number < newest depth count (cell depth number) := by
  have hplace : cell depth number < count := by
    have := cell_lt hdepth number
    omega
  have := (newest_written hdepth (cell_lt hdepth number) hplace).2.2
  omega

/-- A turn leads back to the same cell. -/
theorem cell_add_depth {number : Nat} (h : 0 < number) :
    cell depth (number + depth) = cell depth number := by
  have hshift : number + depth - 1 = number - 1 + depth := by omega
  rw [cell, cell, hshift, Nat.add_mod_right]

/-- The next write changes its own cell only. -/
theorem newest_succ (hdepth : 0 < depth) (hplace : place < depth) :
    newest depth (count + 1) place =
      if cell depth (count + 1) = place then count + 1 else newest depth count place := by
  split
  · rename_i h
    rw [← h]
    exact newest_eq hdepth (by omega) (le_refl _) (by omega)
  · rename_i h
    by_cases hwritten : place < count
    · obtain ⟨h1, h2, h3⟩ := newest_written hdepth hplace hwritten
      have hle := newest_le depth count place
      have hne : count + 1 ≠ newest depth count place + depth := by
        intro heq
        rw [heq, cell_add_depth h1] at h
        exact h h2
      have : newest depth (count + 1) (cell depth (newest depth count place)) =
          newest depth count place := newest_eq hdepth h1 (by omega) (by omega)
      rwa [h2] at this
    · have hne : count ≠ place := by
        rintro rfl
        apply h
        rw [cell, Nat.add_sub_cancel, Nat.mod_eq_of_lt hplace]
      rw [newest_empty (by omega), newest_empty (by omega)]

end

end MpiRma.Cyclic

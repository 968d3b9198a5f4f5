/-
**Cells of an array.**

An array is a function from indices to cells, with a length kept elsewhere; `cells a n` is the list
of the first `n`. `shiftUp` is the loop that makes room for a new cell, and `cells_insert` says what
the array holds after the new cell is written.
-/

import Mathlib.Data.List.Basic
import Mathlib.Logic.Function.Basic

namespace Zedis.Lib

variable {α β : Type}

/-- The first `n` cells. -/
def cells (a : Nat → α) (n : Nat) : List α := (List.range n).map a

/-- The loop `for (i = n; i > pos; i--) a[i] = a[i - 1]`. -/
def shiftUp (pos : Nat) : Nat → (Nat → α) → Nat → α
  | 0, a => a
  | i + 1, a => if pos < i + 1 then shiftUp pos i (Function.update a (i + 1) (a i)) else a

@[simp]
theorem length_cells (a : Nat → α) (n : Nat) : (cells a n).length = n := by simp [cells]

theorem cells_succ (a : Nat → α) (n : Nat) : cells a (n + 1) = cells a n ++ [a n] := by
  simp [cells, List.range_succ]

theorem getElem?_cells (a : Nat → α) (n i : Nat) :
    (cells a n)[i]? = if i < n then some (a i) else none := by
  by_cases below : i < n
  · simp [cells, below]
  · simp [cells, below]

theorem mem_cells {a : Nat → α} {n : Nat} {x : α} : x ∈ cells a n ↔ ∃ i < n, a i = x := by
  simp [cells]

theorem map_cells (g : α → β) (a : Nat → α) (n : Nat) :
    (cells a n).map g = cells (fun i => g (a i)) n := by
  simp [cells, List.map_map, Function.comp_def]

theorem cells_congr {a b : Nat → α} {n : Nat} (same : ∀ i < n, a i = b i) : cells a n = cells b n :=
  List.map_congr_left fun i member => same i (List.mem_range.mp member)

theorem cells_update (a : Nat → α) (n i : Nat) (x : α) :
    cells (Function.update a i x) n = (cells a n).set i x := by
  refine List.ext_getElem? fun j => ?_
  rw [getElem?_cells, List.getElem?_set, length_cells, getElem?_cells]
  by_cases here : i = j
  · subst here
    simp
  · rw [if_neg here, Function.update_of_ne (Ne.symm here)]

/-- **What the shift leaves in a cell.** -/
theorem shiftUp_apply (pos n : Nat) : ∀ (a : Nat → α) (j : Nat),
    shiftUp pos n a j = if pos < j ∧ j ≤ n then a (j - 1) else a j := by
  induction n with
  | zero =>
    intro a j
    rw [if_neg (by omega)]
    rfl
  | succ n ih =>
    intro a j
    by_cases more : pos < n + 1
    · rw [shiftUp, if_pos more, ih]
      by_cases last : j = n + 1
      · subst last
        rw [if_neg (by omega), if_pos ⟨more, Nat.le_refl _⟩, Function.update_self]
        rfl
      · rw [Function.update_of_ne last]
        by_cases inside : pos < j ∧ j ≤ n
        · rw [if_pos inside, if_pos ⟨inside.1, by omega⟩, Function.update_of_ne (by omega)]
        · rw [if_neg inside, if_neg (by omega)]
    · rw [shiftUp, if_neg more, if_neg (by omega)]

/-- **The cells after one is inserted.** -/
theorem cells_insert (a : Nat → α) {pos n : Nat} (inside : pos ≤ n) (x : α) :
    cells (Function.update (shiftUp pos n a) pos x) (n + 1) =
      (cells a n).take pos ++ x :: (cells a n).drop pos := by
  refine List.ext_getElem? fun j => ?_
  rw [getElem?_cells, List.getElem?_append, List.length_take, length_cells, Nat.min_eq_left inside]
  by_cases before : j < pos
  · rw [if_pos (by omega), if_pos before, Function.update_of_ne (by omega), shiftUp_apply,
      if_neg (by omega), List.getElem?_take_of_lt before, getElem?_cells, if_pos (by omega)]
  · rw [if_neg before]
    by_cases here : j = pos
    · subst here
      simp [Nat.lt_succ_of_le inside]
    · obtain ⟨d, rfl⟩ : ∃ d, j = pos + d + 1 := ⟨j - pos - 1, by omega⟩
      rw [Function.update_of_ne here, shiftUp_apply, show pos + d + 1 - pos = d + 1 by omega,
        List.getElem?_cons_succ, List.getElem?_drop, getElem?_cells]
      by_cases below : pos + d < n
      · rw [if_pos (by omega), if_pos (by omega), if_pos below]
        rfl
      · rw [if_neg (by omega), if_neg below]

end Zedis.Lib

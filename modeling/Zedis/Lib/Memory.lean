/-
**Stretches of an addressed memory.**

A memory is a function from addresses to cells. `segment mem start len` is the list of the cells of a
stretch, `store mem at cells` the memory after a copy of a list to an address. Copies are seen through
the segments they hit and the segments they miss.
-/

import Mathlib.Data.List.Basic
import Mathlib.Data.List.Range

namespace Zedis.Lib

variable {α : Type}

/-- The cells from `start` on, `len` of them. -/
def segment (mem : Nat → α) (start len : Nat) : List α := (List.range' start len).map mem

/-- The memory after a copy of `cells` to `address`. -/
def store (mem : Nat → α) (address : Nat) (cells : List α) : Nat → α := fun i =>
  if address ≤ i then (cells[i - address]?).getD (mem i) else mem i

section Segment

variable {mem mem' : Nat → α}

@[simp]
theorem length_segment (mem : Nat → α) (start len : Nat) : (segment mem start len).length = len := by
  simp [segment]

theorem segment_zero (mem : Nat → α) (start : Nat) : segment mem start 0 = [] := rfl

theorem segment_const (cell : α) (start len : Nat) :
    segment (fun _ => cell) start len = List.replicate len cell := by
  rw [segment, List.map_const', List.length_range']

theorem segment_succ (mem : Nat → α) (start len : Nat) :
    segment mem start (len + 1) = mem start :: segment mem (start + 1) len := by
  simp [segment, List.range'_succ]

theorem segment_add (mem : Nat → α) (start first second : Nat) : segment mem start (first + second) =
    segment mem start first ++ segment mem (start + first) second := by
  rw [segment, segment, segment, ← List.map_append, List.range'_append_1]

theorem segment_congr {start len : Nat} (same : ∀ i, start ≤ i → i < start + len → mem i = mem' i) :
    segment mem start len = segment mem' start len := by
  refine List.map_congr_left fun i inside => ?_
  obtain ⟨above, below⟩ := List.mem_range'_1.mp inside
  exact same i above below

theorem getElem?_segment (mem : Nat → α) (start len i : Nat) :
    (segment mem start len)[i]? = if i < len then some (mem (start + i)) else none := by
  by_cases inside : i < len
  · rw [if_pos inside, segment, List.getElem?_map, List.getElem?_range' inside, Nat.one_mul,
      Option.map_some]
  · rw [if_neg inside, List.getElem?_eq_none (by rw [length_segment]; omega)]

theorem drop_segment (mem : Nat → α) (start len n : Nat) :
    (segment mem start len).drop n = segment mem (start + n) (len - n) := by
  by_cases inside : n ≤ len
  · obtain ⟨rest, rfl⟩ := Nat.exists_eq_add_of_le inside
    rw [segment_add, List.drop_left' (length_segment _ _ _), Nat.add_sub_cancel_left]
  · rw [List.drop_eq_nil_of_le (by rw [length_segment]; omega),
      show len - n = 0 by omega, segment_zero]

theorem take_segment (mem : Nat → α) (start : Nat) {len n : Nat} (inside : n ≤ len) :
    (segment mem start len).take n = segment mem start n := by
  obtain ⟨rest, rfl⟩ := Nat.exists_eq_add_of_le inside
  rw [segment_add, List.take_left' (length_segment _ _ _)]

/-- A stretch of a stretch. -/
theorem segment_part {start len : Nat} {cells : List α} (stored : segment mem start len = cells)
    {skip n : Nat} (inside : skip + n ≤ len) :
    segment mem (start + skip) n = (cells.drop skip).take n := by
  rw [← stored, drop_segment, take_segment _ _ (by omega)]

end Segment

section Store

variable (mem : Nat → α) (address : Nat) (cells : List α)

theorem store_outside {i : Nat} (outside : i < address ∨ address + cells.length ≤ i) :
    store mem address cells i = mem i := by
  unfold store
  by_cases above : address ≤ i
  · rw [if_pos above, List.getElem?_eq_none (by omega), Option.getD_none]
  · rw [if_neg above]

/-- **A copy is read back.** -/
theorem segment_store_self : segment (store mem address cells) address cells.length = cells := by
  refine List.ext_getElem? fun i => ?_
  rw [getElem?_segment]
  by_cases inside : i < cells.length
  · rw [if_pos inside, store, if_pos (Nat.le_add_right _ _), Nat.add_sub_cancel_left,
      List.getElem?_eq_getElem inside, Option.getD_some]
  · rw [if_neg inside, List.getElem?_eq_none (by omega)]

/-- **A copy is not seen elsewhere.** -/
theorem segment_store_disjoint {start len : Nat}
    (apart : start + len ≤ address ∨ address + cells.length ≤ start) :
    segment (store mem address cells) start len = segment mem start len :=
  segment_congr fun i above below => store_outside mem address cells (by omega)

end Store

end Zedis.Lib

/-
**Slots of a circular array.**

`slotAt size home d` is the slot `d` places after `home` in an array of `size` slots that wraps
around. Walks over such an array step by `slotAt_succ`; within one lap they meet every slot
(`exists_slotAt`) and none twice (`slotAt_inj`). `ringContents` are the values from a slot on: writing
behind them does not touch them (`ringContents_behind`), and appends (`ringContents_push`); advancing
takes the first (`ringContents_succ`).
-/

import Mathlib.Data.Nat.ModEq
import Mathlib.Logic.Function.Basic

namespace Zedis.Lib

/-- The slot `d` places after `home`. -/
def slotAt (size home d : Nat) : Nat := (home + d) % size

variable {size home d d' : Nat}

theorem slotAt_lt (positive : 0 < size) (home d : Nat) : slotAt size home d < size :=
  Nat.mod_lt _ positive

theorem slotAt_succ (size home d : Nat) : (slotAt size home d + 1) % size = slotAt size home (d + 1) := by
  unfold slotAt
  rw [Nat.mod_add_mod, Nat.add_assoc]

theorem slotAt_add_size (size home d : Nat) : slotAt size home (d + size) = slotAt size home d := by
  unfold slotAt
  rw [← Nat.add_assoc, Nat.add_mod_right]

/-- **No slot is met twice within a lap.** -/
theorem slotAt_inj (lap : d < size) (lap' : d' < size)
    (same : slotAt size home d = slotAt size home d') : d = d' := by
  have modEq : d ≡ d' [MOD size] := Nat.ModEq.add_left_cancel' home same
  exact Nat.ModEq.eq_of_lt_of_lt modEq lap lap'

/-- **Every slot is met within a lap.** -/
theorem exists_slotAt (home : Nat) {slot : Nat} (inside : slot < size) :
    ∃ d < size, slotAt size home d = slot := by
  have positive : 0 < size := by omega
  refine ⟨(slot + (size - home % size)) % size, Nat.mod_lt _ positive, ?_⟩
  have below : home % size < size := Nat.mod_lt _ positive
  unfold slotAt
  rw [Nat.add_mod_mod, ← Nat.mod_add_mod,
    show home % size + (slot + (size - home % size)) = slot + size by omega, Nat.add_mod_right,
    Nat.mod_eq_of_lt inside]

/-! ### Contents -/

section Contents

variable {α : Type} {slots : Nat → α} {start count : Nat}

/-- The `count` values from the slot of `start` on. -/
def ringContents (slots : Nat → α) (size start count : Nat) : List α :=
  (List.range count).map fun d => slots (slotAt size start d)

/-- **A value written behind the contents is appended**, if they do not fill the array. -/
theorem ringContents_push (room : count < size) (value : α) :
    ringContents (Function.update slots (slotAt size start count) value) size start (count + 1) =
      ringContents slots size start count ++ [value] := by
  rw [ringContents, List.range_succ, List.map_append, List.map_singleton, Function.update_self]
  refine congrArg (· ++ [value]) (List.map_congr_left fun d member => ?_)
  have before : d < count := List.mem_range.mp member
  exact Function.update_of_ne (fun same => before.ne (slotAt_inj (before.trans room) room same)) _ _

/-- **A write behind the contents does not touch them**, if they do not fill the array. -/
theorem ringContents_behind (room : count < size) (value : α) :
    ringContents (Function.update slots (slotAt size start count) value) size start count =
      ringContents slots size start count := by
  refine List.map_congr_left fun d member => ?_
  have before : d < count := List.mem_range.mp member
  exact Function.update_of_ne (fun same => before.ne (slotAt_inj (before.trans room) room same)) _ _

/-- The last of the contents, and those before it. -/
theorem ringContents_snoc (slots : Nat → α) (size start count : Nat) :
    ringContents slots size start (count + 1) =
      ringContents slots size start count ++ [slots (slotAt size start count)] := by
  rw [ringContents, List.range_succ, List.map_append, List.map_singleton]
  rfl

/-- The first of the contents, and those after it. -/
theorem ringContents_succ (slots : Nat → α) (size start count : Nat) :
    ringContents slots size start (count + 1) =
      slots (slotAt size start 0) :: ringContents slots size (start + 1) count := by
  rw [ringContents, List.range_succ_eq_map, List.map_cons, List.map_map]
  refine congrArg _ (List.map_congr_left fun d _ => ?_)
  rw [Function.comp_apply, slotAt, slotAt, Nat.succ_eq_add_one, Nat.add_right_comm, Nat.add_assoc]

end Contents

end Zedis.Lib

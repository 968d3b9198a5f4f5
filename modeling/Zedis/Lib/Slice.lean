/-
**Clamped slices, and texts appended while they fit.**

`slice items start stop` are the items from `start` to `stop` inclusive, where a negative `start` is
the first and a negative or too large `stop` the last position; `slice_eq_positions` says the same with
explicit positions. `appendFitting cap` appends a text to another if the result stays below `cap`, and
`appendOrFail cap` gives up at the first that does not.
-/

import Mathlib.Data.List.Basic

namespace Zedis.Lib

variable {α β : Type}

/-- The first position of a slice. -/
def sliceStart (start : Int) : Int := if start < 0 then 0 else start

/-- The last position of a slice of `n` items. -/
def sliceStop (n : Nat) (stop : Int) : Int := if stop < 0 ∨ stop ≥ n then (n : Int) - 1 else stop

/-- The number of items in a slice of `n`. -/
def sliceCount (n : Nat) (start stop : Int) : Nat :=
  (sliceStop n stop - sliceStart start + 1).toNat

/-- **The items of a slice.** -/
def slice (items : List α) (start stop : Int) : List α :=
  (items.drop (sliceStart start).toNat).take (sliceCount items.length start stop)

/-- The items at the positions from `first` to `last`, inclusive. -/
def positions (items : List α) (first last : Int) : List α :=
  (items.drop first.toNat).take (last - first + 1).toNat

/-- The position that `stop` means in a list of `n` items. -/
def lastPosition (n : Nat) (stop : Int) : Int := if 0 ≤ stop ∧ stop < n then stop else (n : Int) - 1

theorem sliceStop_eq (n : Nat) (stop : Int) : sliceStop n stop = lastPosition n stop := by
  unfold sliceStop lastPosition
  by_cases inside : 0 ≤ stop ∧ stop < n
  · rw [if_pos inside, if_neg (by omega)]
  · rw [if_neg inside, if_pos (by omega)]

/-- **A slice by its positions.** -/
theorem slice_eq_positions (items : List α) (start stop : Int) :
    slice items start stop = positions items (max start 0) (lastPosition items.length stop) := by
  have first : sliceStart start = max start 0 := by
    unfold sliceStart
    split
    · omega
    · omega
  rw [slice, positions, sliceCount, first, sliceStop_eq]

theorem sliceStop_lt (n : Nat) (stop : Int) : sliceStop n stop < n := by
  unfold sliceStop
  split
  · omega
  · omega

theorem sliceStart_nonneg (start : Int) : 0 ≤ sliceStart start := by
  unfold sliceStart
  split
  · exact Int.le_refl 0
  · omega

theorem length_slice (items : List α) (start stop : Int) :
    (slice items start stop).length = sliceCount items.length start stop := by
  have last := sliceStop_lt items.length stop
  have first := sliceStart_nonneg start
  rw [slice, List.length_take, List.length_drop, sliceCount]
  omega

theorem length_slice_le (items : List α) (start stop : Int) :
    (slice items start stop).length ≤ items.length := by
  rw [slice, List.length_take, List.length_drop]
  omega

theorem slice_eq_nil {items : List α} {start stop : Int}
    (empty : sliceStart start > sliceStop items.length stop) : slice items start stop = [] := by
  rw [← List.length_eq_zero_iff, length_slice, sliceCount]
  omega

theorem slice_nil (start stop : Int) : slice ([] : List α) start stop = [] := by
  rw [slice, List.drop_nil, List.take_nil]

/-- From the first to the last position. -/
theorem slice_all (items : List α) : slice items 0 (-1) = items := by
  rw [slice, sliceCount, sliceStop, sliceStart, if_pos (Or.inl (by decide)), if_neg (by decide)]
  refine List.take_of_length_le ?_
  rw [List.length_drop]
  omega

theorem slice_map (f : α → β) (items : List α) (start stop : Int) :
    slice (items.map f) start stop = (slice items start stop).map f := by
  rw [slice, slice, List.length_map, List.map_take, List.map_drop]

/-- A slice of the first items, by its length. -/
theorem slice_take (items : List α) (m : Nat) (start stop : Int) : slice (items.take m) start stop =
    (items.drop (sliceStart start).toNat).take (sliceCount (min m items.length) start stop) := by
  have last := sliceStop_lt (min m items.length) stop
  have first := sliceStart_nonneg start
  rw [slice, List.length_take, List.drop_take, List.take_take]
  congr 1
  rw [sliceCount]
  omega

theorem mem_of_slice {items : List α} {start stop : Int} {item : α}
    (member : item ∈ slice items start stop) : item ∈ items :=
  List.mem_of_mem_drop (List.mem_of_mem_take member)

/-! ### Appending what fits -/

/-- A text appended, if the result is shorter than `cap`. -/
def appendFitting (cap : Nat) (reply text : List α) : List α :=
  if reply.length + text.length < cap then reply ++ text else reply

/-- A text appended, or `none` if the result is not shorter than `cap`. -/
def appendOrFail (cap : Nat) (reply text : List α) : Option (List α) :=
  if reply.length + text.length ≥ cap then none else some (reply ++ text)

/-- The items whose texts `appendFitting` appends, one after the other. -/
def fittingItems (text : β → List α) (cap : Nat) : List α → List β → List β
  | _, [] => []
  | reply, item :: items =>
    if reply.length + (text item).length < cap then
      item :: fittingItems text cap (reply ++ text item) items
    else fittingItems text cap reply items

section Append

variable {cap : Nat}

theorem length_foldl_fitting (texts : List (List α)) : ∀ reply : List α, reply.length < cap →
    (texts.foldl (appendFitting cap) reply).length < cap := by
  induction texts with
  | nil => exact fun _ short => short
  | cons text texts ih =>
    intro reply short
    rw [List.foldl_cons]
    apply ih
    unfold appendFitting
    split
    · rwa [List.length_append]
    · exact short

/-- The reply so far stays at the front. -/
theorem front_foldl_fitting (texts : List (List α)) : ∀ reply : List α,
    reply <+: texts.foldl (appendFitting cap) reply := by
  induction texts with
  | nil => exact fun reply => List.prefix_rfl
  | cons text texts ih =>
    intro reply
    rw [List.foldl_cons]
    refine List.IsPrefix.trans ?_ (ih _)
    unfold appendFitting
    split
    · exact List.prefix_append _ _
    · exact List.prefix_rfl

/-- **If all texts fit, all are appended.** -/
theorem foldl_fitting_of_fits (texts : List (List α)) : ∀ reply : List α,
    (reply ++ texts.flatten).length < cap →
    texts.foldl (appendFitting cap) reply = reply ++ texts.flatten := by
  induction texts with
  | nil => exact fun reply _ => (List.append_nil reply).symm
  | cons text texts ih =>
    intro reply fits
    rw [List.flatten_cons, ← List.append_assoc] at fits
    have here : reply.length + text.length < cap := by
      rw [List.length_append, List.length_append] at fits
      omega
    rw [List.foldl_cons, appendFitting, if_pos here, ih _ fits, List.flatten_cons, List.append_assoc]

section Items

variable {text : β → List α}

variable (text) in
/-- **The items whose texts are appended**, in their order. -/
theorem foldl_fitting_items (cap : Nat) (items : List β) : ∀ reply : List α,
    (items.map text).foldl (appendFitting cap) reply =
      reply ++ ((fittingItems text cap reply items).map text).flatten := by
  induction items with
  | nil => exact fun reply => (List.append_nil reply).symm
  | cons item items ih =>
    intro reply
    rw [List.map_cons, List.foldl_cons, appendFitting, fittingItems]
    split
    · rw [ih, List.map_cons, List.flatten_cons, List.append_assoc]
    · exact ih reply

variable (text) in
theorem fittingItems_sublist (cap : Nat) (items : List β) : ∀ reply : List α,
    (fittingItems text cap reply items).Sublist items := by
  induction items with
  | nil => exact fun _ => .slnil
  | cons item items ih =>
    intro reply
    rw [fittingItems]
    split
    · exact (ih _).cons_cons item
    · exact (ih reply).cons item

theorem fittingItems_of_fits (items : List β) : ∀ reply : List α,
    (reply ++ (items.map text).flatten).length < cap → fittingItems text cap reply items = items := by
  induction items with
  | nil => exact fun _ _ => rfl
  | cons item items ih =>
    intro reply fits
    rw [List.map_cons, List.flatten_cons, ← List.append_assoc] at fits
    have here : reply.length + (text item).length < cap := by
      rw [List.length_append, List.length_append] at fits
      omega
    rw [fittingItems, if_pos here, ih _ fits]

end Items

/-- **If not all texts fit, no room for one more is left.** -/
theorem foldl_fitting_full {bound : Nat} (texts : List (List α)) : ∀ reply : List α,
    (∀ text ∈ texts, text.length ≤ bound) → cap ≤ (reply ++ texts.flatten).length →
    reply.length < cap → cap ≤ (texts.foldl (appendFitting cap) reply).length + bound := by
  induction texts with
  | nil =>
    intro reply _ full short
    rw [List.flatten_nil, List.append_nil] at full
    omega
  | cons text texts ih =>
    intro reply bounded full short
    rw [List.flatten_cons, ← List.append_assoc] at full
    rw [List.foldl_cons, appendFitting]
    by_cases here : reply.length + text.length < cap
    · rw [if_pos here]
      apply ih
      · exact fun other member => bounded other (List.mem_cons_of_mem _ member)
      · exact full
      · rwa [List.length_append]
    · rw [if_neg here]
      have small := bounded text List.mem_cons_self
      have longer : reply.length ≤ (texts.foldl (appendFitting cap) reply).length :=
        (front_foldl_fitting texts reply).length_le
      omega

/-- **Texts are appended if all fit.** -/
theorem foldlM_orFail (texts : List (List α)) : ∀ reply : List α, reply.length < cap →
    texts.foldlM (appendOrFail cap) reply =
      if (reply ++ texts.flatten).length < cap then some (reply ++ texts.flatten) else none := by
  induction texts with
  | nil =>
    intro reply short
    rw [List.flatten_nil, List.append_nil, if_pos short]
    rfl
  | cons text texts ih =>
    intro reply short
    rw [List.foldlM_cons, appendOrFail, List.flatten_cons, ← List.append_assoc]
    by_cases here : reply.length + text.length ≥ cap
    · rw [if_pos here, if_neg (by rw [List.length_append, List.length_append]; omega)]
      rfl
    · rw [if_neg here]
      exact ih _ (by rw [List.length_append]; omega)

end Append

end Zedis.Lib

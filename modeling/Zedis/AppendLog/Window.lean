/-
**`LRANGE` and `LLEN`.**

`zedis_aol_lrange` clamps its window against the number of offsets it collected, at most 1024, and not
against the list's count. `lrange_agrees_iff`: the selected elements are those that the count promises
exactly if the list has at most 1024 elements, or `stop` is one of the first 1024 positions, or the
window is empty.
-/

import Zedis.AppendLog.Range
import Zedis.Lib.Decimal

namespace Zedis.AppendLog

open Zedis.Lib Zedis.Reply

/-- The length of `offsets` in `zedis_aol_lrange`. -/
def walkLimit : Nat := 1024

/-- Whenever `zedis_aol_lrange` succeeds, it selects the elements at the positions `max(start, 0)` to `e`
of the whole list, `e` being `stop` if it is below the length that `zedis_aol_llen` gives, and otherwise
the last position. -/
def AgreesWithLlen (log : ZedisAppendLog) (list : ListMeta) (whole : List Bytes) (start stop : Int) :
    Prop :=
  ∀ cap reply, zedisAolLrange log list start stop cap = some reply →
    reply = rangeText (positions whole (max start 0) (lastPosition (zedisAolLlen list) stop))

/-- The window lies within the offsets that are collected, or it is empty. -/
def WindowWalked (n : Nat) (start stop : Int) : Prop :=
  n ≤ walkLimit ∨ (0 ≤ stop ∧ stop < walkLimit) ∨ lastPosition n stop < max start 0

/-! ### Texts and windows -/

section Window

/-- The header of a range tells the number of its elements. -/
theorem length_eq_of_rangeText {items others : List Bytes} (same : rangeText items = rangeText others) :
    items.length = others.length := by
  have digits : ∀ items : List Bytes,
      (rangeText items).tail.takeWhile isDigit = decimal items.length := by
    intro items
    have text : (rangeText items).tail =
        decimal items.length ++ 13 :: (10 :: (items.map bulkText).flatten) := by
      simp only [rangeText, arrayHeader, crlf, List.cons_append, List.append_assoc, List.tail_cons,
        List.nil_append]
    rw [text]
    exact (decimal_spec items.length).takeWhile (by decide)
  have numbers : decimal items.length = decimal others.length := by
    rw [← digits, ← digits, same]
  rw [← (decimal_spec items.length).value, numbers, (decimal_spec others.length).value]

/-- The two counts of a window agree exactly if it is walked. -/
theorem sliceCount_walked_iff (n : Nat) (start stop : Int) :
    sliceCount (min walkLimit n) start stop = sliceCount n start stop ↔ WindowWalked n start stop := by
  have first := sliceStart_nonneg start
  have isStart : sliceStart start = max start 0 := by
    unfold sliceStart
    split
    · omega
    · omega
  unfold sliceCount WindowWalked
  rw [isStart, sliceStop_eq, sliceStop_eq]
  unfold lastPosition
  rw [isStart] at first
  by_cases short : n ≤ walkLimit
  · rw [Nat.min_eq_right short]
    exact ⟨fun _ => Or.inl short, fun _ => rfl⟩
  · rw [Nat.min_eq_left (Nat.le_of_not_le short)]
    split
    · split
      · omega
      · omega
    · split
      · omega
      · omega

/-- A window of the newest elements is that of the whole list exactly if it is walked. -/
theorem rangeText_take_iff (whole : List Bytes) (start stop : Int) :
    rangeText (slice (whole.take walkLimit) start stop) = rangeText (slice whole start stop) ↔
      WindowWalked whole.length start stop := by
  rw [← sliceCount_walked_iff]
  constructor
  · intro same
    have lengths := length_eq_of_rangeText same
    rwa [length_slice, length_slice, List.length_take] at lengths
  · intro counts
    rw [slice_take, counts]
    rfl

end Window

/-- **`LRANGE` agrees with `LLEN` exactly if its window is walked**, for every list that pushes build
below `ZEDIS_AOL_NO_PREV`. -/
theorem lrange_agrees_iff {capacity : Nat} {mapped : Option (Nat → UInt8)} {log : ZedisAppendLog}
    (made : zedisAolInit mapped capacity = some log) {ops : List Push} {s : SharedLog}
    {written : Written}
    (run : Run loggedPush PushUncut (⟨log, fun _ => emptyList⟩, fun _ => []) ops (s, written))
    (list : Nat) (start stop : Int) :
    AgreesWithLlen s.log (s.lists list) ((written list).map Prod.snd) start stop ↔
      WindowWalked (zedisAolLlen (s.lists list)) start stop := by
  have ok := sharedOk_of_run made run
  have inside : s.log.writePos ≤ s.log.capacity := ok.capacity_eq ▸ ok.inside
  have length : zedisAolLlen (s.lists list) = ((written list).map Prod.snd).length := by
    rw [zedisAolLlen, (ok.lists list).count, List.length_map]
  have values : valuesOf s.log (s.lists list) = ((written list).map Prod.snd).take walkLimit :=
    valuesOf_of_listOk inside (ok.lists list)
  generalize (written list).map Prod.snd = whole at length values
  rw [length, ← rangeText_take_iff, AgreesWithLlen, length, ← slice_eq_positions]
  constructor
  · intro agrees
    refine agrees ((rangeText (slice (whole.take walkLimit) start stop)).length + 1) _ ?_
    rw [zedisAolLrange_eq, values, formatted, if_neg (by omega)]
  · intro same cap reply returned
    rw [zedisAolLrange_eq, values, same] at returned
    exact (Option.some.inj (Option.ite_none_left_eq_some.mp returned).2).symm

/-! ### A list of 1025 elements -/

section Sample

/-- The same push, many times over. -/
def samePushes (n : Nat) : List Push := List.replicate n ⟨0, [107], [118]⟩

/-- The pushes are accepted while there is room for ten bytes more. -/
theorem exists_samePushes (log : ZedisAppendLog) (start : log.writePos = 0) :
    ∀ n, 10 * n ≤ log.capacity → 10 * n < zedisAolNoPrev + 10 →
    ∃ s written, Run loggedPush PushUncut (⟨log, fun _ => emptyList⟩, fun _ => []) (samePushes n)
      (s, written) ∧ s.log.capacity = log.capacity ∧ s.log.writePos = 10 * n ∧
      (written 0).map Prod.snd = List.replicate n [118]
  | 0, _, _ => ⟨_, _, .nil _, rfl, start, rfl⟩
  | n + 1, room, uncut => by
    obtain ⟨s, written, run, sameCapacity, position, values⟩ :=
      exists_samePushes log start n (by omega) (by omega)
    have grown : s.log.writePos + recordSize [(107 : UInt8)].length [(118 : UInt8)].length =
        10 * (n + 1) := by
      rw [position]
      rfl
    have accepted : Accepted s.log [107] [118] := by
      refine ⟨by decide, by decide, by decide, by decide, ?_⟩
      rw [grown]
      exact (Nat.mod_le _ _).trans (sameCapacity ▸ room)
    have below : s.log.writePos < zedisAolNoPrev := by omega
    have small : s.log.writePos < 2 ^ 63 := below.trans (by decide)
    have taken := loggedPush_accepted s written ⟨0, [107], [118]⟩ accepted
    rw [samePushes, List.replicate_succ']
    refine ⟨_, _, run.snoc (fun _ => below) taken, sameCapacity, ?_, ?_⟩
    · rw [pushedLog_writePos _ accepted small, grown]
    · rw [Function.update_self, List.map_cons, values, List.replicate_succ]

/-- Two elements. -/
theorem lrange_agrees_iff_two : ∃ log s written,
    zedisAolInit (some fun _ => 0) 4096 = some log ∧
      Run loggedPush PushUncut (⟨log, fun _ => emptyList⟩, fun _ => []) (samePushes 2) (s, written) ∧
      AgreesWithLlen s.log (s.lists 0) [[118], [118]] 0 (-1) := by
  have made : zedisAolInit (some fun _ => 0) 4096 = some ⟨fun _ => 0, 4096, 0⟩ := rfl
  obtain ⟨s, written, run, -, -, values⟩ :=
    exists_samePushes ⟨fun _ => 0, 4096, 0⟩ rfl 2 (by decide) (by decide)
  have count := ((sharedOk_of_run made run).lists 0).count
  have two : (written 0).length = 2 := by
    rw [← List.length_map (f := Prod.snd), values, List.length_replicate]
  have agrees := (lrange_agrees_iff made run 0 0 (-1)).mpr (Or.inl (by
    rw [zedisAolLlen, count, two]
    decide))
  rw [values] at agrees
  exact ⟨_, s, written, made, run, agrees⟩

/-- **The oldest of 1025 elements is not selected**: `LLEN` gives 1025, and the range of all of them, in
the buffer of `lrange_command`, has 1024. -/
theorem oldest_element_dropped : ∃ log s written,
    zedisAolInit (some fun _ => 0) 16384 = some log ∧
      Run loggedPush PushUncut (⟨log, fun _ => emptyList⟩, fun _ => []) (samePushes 1025)
        (s, written) ∧
      zedisAolLlen (s.lists 0) = 1025 ∧
      zedisAolLrange s.log (s.lists 0) 0 (-1) 8192 =
        some (rangeText (List.replicate 1024 [118])) ∧
      ¬ AgreesWithLlen s.log (s.lists 0) ((written 0).map Prod.snd) 0 (-1) := by
  have made : zedisAolInit (some fun _ => 0) 16384 = some ⟨fun _ => 0, 16384, 0⟩ := rfl
  obtain ⟨s, written, run, -, -, values⟩ :=
    exists_samePushes ⟨fun _ => 0, 16384, 0⟩ rfl 1025 (by decide) (by decide)
  have ok := sharedOk_of_run made run
  have length : zedisAolLlen (s.lists 0) = 1025 := by
    rw [zedisAolLlen, (ok.lists 0).count, ← List.length_map (f := Prod.snd), values,
      List.length_replicate]
  have found : valuesOf s.log (s.lists 0) = List.replicate 1024 [118] := by
    rw [valuesOf_of_listOk (ok.capacity_eq ▸ ok.inside) (ok.lists 0), values, List.take_replicate]
    rfl
  have short : (rangeText (List.replicate 1024 [(118 : UInt8)])).length = 7175 := by
    rw [rangeText, List.length_replicate, List.map_replicate, List.length_append,
      List.length_flatten, List.map_replicate, List.sum_replicate_nat]
    rfl
  have reply : zedisAolLrange s.log (s.lists 0) 0 (-1) 8192 =
      some (rangeText (List.replicate 1024 [118])) := by
    rw [zedisAolLrange_eq, found, slice_all, formatted, if_neg (by rw [short]; decide)]
  refine ⟨_, s, written, made, run, length, reply, fun agrees => ?_⟩
  have lengths := length_eq_of_rangeText (agrees 8192 _ reply)
  rw [values, length, List.length_replicate] at lengths
  have all : positions (List.replicate 1025 [(118 : UInt8)]) (max 0 0) (lastPosition 1025 (-1)) =
      List.replicate 1025 [118] := by
    have sliced := slice_eq_positions (List.replicate 1025 [(118 : UInt8)]) 0 (-1)
    rw [slice_all, List.length_replicate] at sliced
    exact sliced.symm
  rw [all, List.length_replicate] at lengths
  omega

end Sample

end Zedis.AppendLog

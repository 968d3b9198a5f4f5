/-
**The reply of `zedis_aol_lrange`.**

The reply is an array header and the texts of a slice of the records that the walk along the chain
finds; it is refused as a whole if it does not fit (`zedisAolLrange_eq`).
-/

import Zedis.AppendLog.Chain
import Zedis.Lib.Slice

namespace Zedis.AppendLog

open Zedis.Lib Zedis.Reply

/-- The offsets that `zedis_aol_lrange` collects. -/
def offsetsOf (log : ZedisAppendLog) (list : ListMeta) : List Nat :=
  if list.count = 0 ∨ list.headOff = zedisAolNoPrev then [] else chainWalk log 1024 list.headOff

/-- The values that it finds there. -/
def valuesOf (log : ZedisAppendLog) (list : ListMeta) : List Bytes :=
  (offsetsOf log list).map (valAt log)

section Range

variable {log : ZedisAppendLog} {list : ListMeta}

/-- The walk stops at an offset without a header. -/
theorem hdrAt_of_chainWalk : ∀ {room cur : Nat}, ∀ off ∈ chainWalk log room cur, hdrAt log off = true
  | 0, _, _, member => nomatch member
  | room + 1, cur, off, member => by
    rw [chainWalk] at member
    split at member
    · cases member
    · split at member
      · cases member
      · rename_i isHeader
        rcases List.mem_cons.mp member with rfl | later
        · exact Bool.of_not_eq_false isHeader
        · exact hdrAt_of_chainWalk off later

theorem hdrAt_of_offsetsOf {off : Nat} (member : off ∈ offsetsOf log list) : hdrAt log off = true := by
  unfold offsetsOf at member
  split at member
  · cases member
  · exact hdrAt_of_chainWalk off member

/-- The elements of a range are appended one by one. -/
theorem foldlM_printElement {offsets : List Nat} {cap : Nat}
    (headers : ∀ off ∈ offsets, hdrAt log off = true) (reply : Bytes) :
    offsets.foldlM (printElement log cap) reply =
      ((offsets.map (valAt log)).map bulkText).foldlM (appendOrFail cap) reply := by
  rw [List.map_map, List.foldlM_map]
  refine foldlM_congr (fun acc off member => ?_) reply
  rw [printElement, if_neg (by rw [headers off member]; decide)]
  rfl

/-- **The reply is the text of the range, if it fits.** -/
theorem zedisAolLrange_eq (log : ZedisAppendLog) (list : ListMeta) (start stop : Int) (cap : Nat) :
    zedisAolLrange log list start stop cap =
      formatted (rangeText (slice (valuesOf log list) start stop)) cap := by
  have headers : ∀ off ∈ slice (offsetsOf log list) start stop, hdrAt log off = true :=
    fun off member => hdrAt_of_offsetsOf (mem_of_slice member)
  unfold zedisAolLrange
  rw [valuesOf, slice_map]
  by_cases empty : list.count = 0 ∨ list.headOff = zedisAolNoPrev
  · have nothing : slice (offsetsOf log list) start stop = [] := by
      rw [offsetsOf, if_pos empty, slice_nil]
    rw [if_pos empty, nothing]
    rfl
  · have offsets : offsetsOf log list = chainWalk log 1024 list.headOff := if_neg empty
    rw [if_neg empty, ← offsets]
    generalize offsetsOf log list = found at headers
    change (if sliceStart start > sliceStop found.length stop then _ else _) = _
    by_cases outside : sliceStart start > sliceStop found.length stop
    · rw [if_pos outside, slice_eq_nil outside]
      rfl
    · rw [if_neg outside]
      change (formatted (arrayHeader (sliceCount found.length start stop)) cap).bind
        (fun header => (slice found start stop).foldlM (printElement log cap) header) = _
      simp only [foldlM_printElement headers, rangeText, List.length_map]
      rw [← length_slice]
      generalize slice found start stop = chosen
      unfold formatted
      by_cases full : (arrayHeader chosen.length).length ≥ cap
      · rw [if_pos full, if_pos (by rw [List.length_append]; omega)]
        rfl
      · rw [if_neg full, Option.bind_some, foldlM_orFail _ _ (Nat.not_le.mp full)]
        exact (ite_not _ _ _).symm.trans (if_congr Nat.not_lt rfl rfl)

/-- A walk along a chain that lies within the capacity finds its records, as far as it has room. -/
theorem chainWalk_of_visits (inside : log.writePos ≤ log.capacity) :
    ∀ (room : Nat) {records : List (Nat × Bytes)} {cur : Nat}, Visits log cur records →
      (chainWalk log room cur).map (valAt log) = (records.map Prod.snd).take room
  | 0, _, _, _ => rfl
  | room + 1, [], cur, visits => by
    have ended : cur = zedisAolNoPrev := visits
    rw [chainWalk, if_pos ended]
    rfl
  | room + 1, record :: records, cur, visits => by
    obtain ⟨-, isRecord, value, ends, rest⟩ := visits
    have isHeader : ¬ hdrAt log cur = false := by
      unfold recordEnd recordSize at ends
      simp only [hdrAt, Bool.not_eq_false', Bool.or_eq_true, beq_iff_eq, decide_eq_true_eq, not_or]
      exact ⟨isRecord, by omega⟩
    rw [chainWalk, if_neg isRecord, if_neg isHeader, List.map_cons, chainWalk_of_visits inside room rest,
      value]
    rfl

/-- **A list reads the values of its records**, the newest 1024 of them. -/
theorem valuesOf_of_listOk (inside : log.writePos ≤ log.capacity) {records : List (Nat × Bytes)}
    (ok : ListOk log list records) : valuesOf log list = (records.map Prod.snd).take 1024 := by
  rw [valuesOf, offsetsOf]
  cases records with
  | nil =>
    have ended : list.headOff = zedisAolNoPrev := ok.visits
    rw [if_pos (Or.inr ended)]
    rfl
  | cons record records =>
    have counted := ok.count
    rw [List.length_cons] at counted
    have nonempty : ¬ (list.count = 0 ∨ list.headOff = zedisAolNoPrev) := by
      rintro (none | ended)
      · omega
      · exact ok.visits.2.1 ended
    rw [if_neg nonempty, chainWalk_of_visits inside 1024 ok.visits]

end Range

end Zedis.AppendLog

/-
**The 32-bit offsets of a log.**

A record is written at `write_pos`, a `size_t`; its list keeps the position in `head_off`, and the next
record of the list in its `prev_off`, both of 32 bits and with the greatest value as the mark of the end.
The stored offset of every record is its position throughout a run exactly if every accepted push is made
below that mark (`offsets_throughout_iff`).
-/

import Zedis.AppendLog.Window

namespace Zedis.AppendLog

open Zedis.Lib

/-- Each of the records, newest first, is where the offset that is stored for it says: the first at
`off`, the others at the `prev_off` of the record before. -/
def StoredExactly (log : ZedisAppendLog) : Nat → List (Nat × Bytes) → Prop
  | _, [] => True
  | off, record :: older =>
    off = record.1 ∧ off ≠ zedisAolNoPrev ∧ StoredExactly log (hdrPrevOff log record.1) older

/-- **The offsets of all lists are exact.** -/
def OffsetsExact (state : SharedLog × Written) : Prop :=
  ∀ list, StoredExactly state.1.log (state.1.lists list).headOff (state.2 list)

section Push

variable {capacity : Nat} {s : SharedLog} {written : Written}

theorem Visits.storedExactly {log : ZedisAppendLog} :
    ∀ {records cur}, Visits log cur records → StoredExactly log cur records
  | [], _, _ => trivial
  | record :: records, cur, visits => by
    obtain ⟨isCur, isRecord, -, -, rest⟩ := visits
    refine ⟨isCur, isRecord, ?_⟩
    rw [← isCur]
    exact rest.storedExactly

theorem SharedOk.offsetsExact (ok : SharedOk capacity s written) : OffsetsExact (s, written) :=
  fun list => (ok.lists list).visits.storedExactly

/-- The offset of the pushed record is exact only if its position is below the mark. -/
theorem OffsetsExact.uncut {op : Push} {after : SharedLog × Written}
    (taken : loggedPush (s, written) op = some after) (exact : OffsetsExact after) :
    PushUncut (s, written) op := by
  intro accepted
  cases (loggedPush_accepted s written op accepted).symm.trans taken
  have stored := exact op.list
  simp only [Function.update_self] at stored
  obtain ⟨isPosition, notMark, -⟩ := stored
  have cut : s.log.writePos % offMod = s.log.writePos := isPosition
  have differs : s.log.writePos ≠ zedisAolNoPrev := fun same => notMark (isPosition.trans same)
  have below : s.log.writePos < offMod := by
    rw [← cut]
    exact Nat.mod_lt _ (by decide)
  show s.log.writePos < zedisAolNoPrev
  unfold offMod at below
  unfold zedisAolNoPrev at differs ⊢
  omega

/-- **One push leaves exact offsets exactly if it is uncut.** -/
theorem offsetsExact_push_iff (ok : SharedOk capacity s written) {op : Push}
    {after : SharedLog × Written} (taken : loggedPush (s, written) op = some after) :
    OffsetsExact after ↔ PushUncut (s, written) op :=
  ⟨fun exact => exact.uncut taken, fun uncut => (loggedPush_ok ok uncut taken).offsetsExact⟩

end Push

/-- **The offsets are exact throughout a run exactly if every accepted push is made below
`ZEDIS_AOL_NO_PREV`.** -/
theorem offsets_throughout_iff {capacity : Nat} {mapped : Option (Nat → UInt8)} {log : ZedisAppendLog}
    (made : zedisAolInit mapped capacity = some log) {ops : List Push} {last : SharedLog × Written}
    (run : Run loggedPush Always (⟨log, fun _ => emptyList⟩, fun _ => []) ops last) :
    (∀ n middle, Run loggedPush Always (⟨log, fun _ => emptyList⟩, fun _ => []) (ops.take n) middle →
        OffsetsExact middle) ↔
      Run loggedPush PushUncut (⟨log, fun _ => emptyList⟩, fun _ => []) ops last :=
  run.throughout_iff (fun state => SharedOk capacity state.1 state.2) OffsetsExact
    (fun _ _ _ ok uncut taken => loggedPush_ok ok uncut taken)
    (fun _ _ _ ok _ taken => offsetsExact_push_iff ok taken)
    (.start made) (SharedOk.start made).offsetsExact

/-- Two pushes to a log of 4096 bytes. -/
theorem offsets_throughout_two : ∃ log last,
    zedisAolInit (some fun _ => 0) 4096 = some log ∧
      Run loggedPush Always (⟨log, fun _ => emptyList⟩, fun _ => []) (samePushes 2) last ∧
      ∀ n middle, Run loggedPush Always (⟨log, fun _ => emptyList⟩, fun _ => [])
        ((samePushes 2).take n) middle → OffsetsExact middle := by
  have made : zedisAolInit (some fun _ => 0) 4096 = some ⟨fun _ => 0, 4096, 0⟩ := rfl
  obtain ⟨s, written, uncut, -⟩ :=
    exists_samePushes ⟨fun _ => 0, 4096, 0⟩ rfl 2 (by decide) (by decide)
  have run : Run loggedPush Always _ _ (s, written) := uncut.mono fun _ _ _ => trivial
  exact ⟨_, (s, written), made, run, (offsets_throughout_iff made run).mpr uncut⟩

/-- **A push beyond four gigabytes stores another offset**: in a log of `2 ^ 33` bytes, `429496730`
records of ten bytes end at `2 ^ 32 + 4`, and the next one is said to be at `4`. -/
theorem offset_cut : ¬ ∀ mapped capacity log, zedisAolInit mapped capacity = some log →
    ∀ ops last, Run loggedPush Always (⟨log, fun _ => emptyList⟩, fun _ => []) ops last →
      OffsetsExact last := by
  intro allExact
  have made : zedisAolInit (some fun _ => 0) (2 ^ 33) = some ⟨fun _ => 0, 2 ^ 33, 0⟩ := rfl
  obtain ⟨s, written, uncut, capacity, position, -⟩ := exists_samePushes ⟨fun _ => 0, 2 ^ 33, 0⟩ rfl
    429496730 (by decide) (by decide)
  have accepted : Accepted s.log [107] [118] := by
    refine ⟨by decide, by decide, by decide, by decide, ?_⟩
    rw [position, capacity]
    decide
  have taken := loggedPush_accepted s written ⟨0, [107], [118]⟩ accepted
  have run : Run loggedPush Always _ _ (s, written) := uncut.mono fun _ _ _ => trivial
  have exact := allExact _ _ _ made _ _ (run.snoc trivial taken)
  have below := exact.uncut taken accepted
  dsimp only at below
  rw [position] at below
  exact absurd below (by decide)

end Zedis.AppendLog

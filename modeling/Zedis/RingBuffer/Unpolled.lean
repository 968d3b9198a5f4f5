/-
**A ring that is published to and never polled.**

`read_seq` stays `0`, so `write_seq` counts the accepted messages and stops at the capacity: of the
messages that are short enough, the ring takes the first `capacity` and refuses all others
(`Unpolled.publish`, `Unpolled.accepts_iff`).
-/

import Zedis.RingBuffer.Model
import Mathlib.Data.UInt

namespace Zedis.RingBuffer

open Zedis.Lib Zedis.Arena

section Publish

variable {ring after : ZedisRingBuffer} {channel payload : Bytes}

theorem zedisRingPublish_eq_some {ring after : ZedisRingBuffer} {channel payload : Bytes}
    (taken : zedisRingPublish ring channel payload = some after) :
    payload.length ≤ zedisRingMsgMax ∧ ring.writeSeq - ring.readSeq < ring.capacity ∧
      after.capacity = ring.capacity ∧ after.readSeq = ring.readSeq ∧
      after.writeSeq = ring.writeSeq + 1 := by
  unfold zedisRingPublish at taken
  split at taken
  · cases taken
  · rename_i short
    dsimp only at taken
    split at taken
    · cases taken
    · rename_i room
      cases taken
      exact ⟨Nat.not_lt.mp short, UInt64.not_le.mp room, rfl, rfl, rfl⟩

theorem zedisRingPublish_of_room (channel : Bytes) (short : payload.length ≤ zedisRingMsgMax)
    (room : ring.writeSeq - ring.readSeq < ring.capacity) :
    ∃ after, zedisRingPublish ring channel payload = some after := by
  unfold zedisRingPublish
  rw [if_neg (Nat.not_lt.mpr short)]
  exact ⟨_, if_neg (UInt64.not_le.mpr room)⟩

end Publish

/-! ### Counting -/

/-- The ring after `count` messages that were short enough, none of them polled. -/
structure Unpolled (capacity : UInt64) (count : Nat) (ring : ZedisRingBuffer) : Prop where
  capacity_eq : ring.capacity = capacity
  unread : ring.readSeq = 0
  written : ring.writeSeq.toNat = min count capacity.toNat

section Unpolled

variable {capacity : UInt64} {count : Nat} {ring : ZedisRingBuffer} {channel payload : Bytes}

theorem Unpolled.init {arena arena' : ZedisArena}
    (made : zedisRingInit arena capacity = some (ring, arena')) :
    Unpolled (nextPowerOfTwo capacity) 0 ring := by
  obtain ⟨-, made⟩ := Option.ite_none_left_eq_some.mp made
  obtain ⟨_, -, same⟩ := Option.map_eq_some_iff.mp made
  cases same
  exact ⟨rfl, rfl, (Nat.zero_min _).symm⟩

theorem Unpolled.room_iff (unpolled : Unpolled capacity count ring) :
    ring.writeSeq - ring.readSeq < ring.capacity ↔ count < capacity.toNat := by
  rw [unpolled.unread, UInt64.sub_zero, unpolled.capacity_eq, UInt64.lt_iff_toNat_lt, unpolled.written]
  omega

/-- **A short message is taken exactly if fewer than `capacity` were published before.** -/
theorem Unpolled.accepts_iff (unpolled : Unpolled capacity count ring)
    (short : payload.length ≤ zedisRingMsgMax) :
    (∃ after, zedisRingPublish ring channel payload = some after) ↔ count < capacity.toNat := by
  rw [← unpolled.room_iff]
  exact ⟨fun ⟨_, taken⟩ => (zedisRingPublish_eq_some taken).2.1, zedisRingPublish_of_room channel short⟩

/-- A publish counts, if the message is short enough. -/
theorem Unpolled.publish (unpolled : Unpolled capacity count ring) (channel payload : Bytes) :
    Unpolled capacity (count + if payload.length ≤ zedisRingMsgMax then 1 else 0)
      ((zedisRingPublish ring channel payload).getD ring) := by
  have written := unpolled.written
  cases taken : zedisRingPublish ring channel payload with
  | none =>
    rw [Option.getD_none]
    refine ⟨unpolled.capacity_eq, unpolled.unread, ?_⟩
    split
    · rename_i short
      have full : ¬ count < capacity.toNat := fun room => by
        obtain ⟨after, accepted⟩ := (unpolled.accepts_iff short).mpr room
        rw [taken] at accepted
        cases accepted
      omega
    · exact written
  | some after =>
    obtain ⟨short, room, sameCapacity, sameRead, next⟩ := zedisRingPublish_eq_some taken
    have below := unpolled.room_iff.mp room
    have bound := capacity.toNat_lt
    rw [Option.getD_some, if_pos short]
    refine ⟨sameCapacity.trans unpolled.capacity_eq, sameRead.trans unpolled.unread, ?_⟩
    rw [next, UInt64.toNat_add, UInt64.toNat_one]
    omega

end Unpolled

end Zedis.RingBuffer

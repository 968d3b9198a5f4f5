/-
**The ring is a bounded queue.**

A `RingLog` is a ring with its history. What was polled, followed by what stands in the ring from
`read_seq` on, are the published messages in order, numbered from `0` (`QueueInv`): a publish writes
behind the contents and a poll takes the first of them, by the rules of `ringContents`. So the ring is a
queue of `capacity` messages (`ring_is_queue`), as long as the counters do not wrap around.
-/

import Zedis.Lib.Ring
import Zedis.Lib.Run
import Zedis.RingBuffer.Capacity
import Zedis.RingBuffer.Unpolled

namespace Zedis.RingBuffer

open Zedis.Lib Zedis.Arena

/-- A call on a ring. -/
inductive RingOp
  | publish (channel payload : Bytes)
  | poll
deriving DecidableEq, Repr

/-- The call is a publish. -/
def RingOp.publishes : RingOp → Bool
  | .publish _ _ => true
  | .poll => false

/-- A ring with its history: the channels and payloads of the publishes that returned `0`, and what the
polls that returned `0` have written to their slots, oldest first. -/
structure RingLog where
  ring : ZedisRingBuffer
  published : List (Bytes × Bytes)
  polled : List RingSlot

/-- The state a call leaves; one that returns `-1` leaves it as it was. -/
def ringStep (s : RingLog) : RingOp → Option RingLog
  | .publish channel payload =>
    match zedisRingPublish s.ring channel payload with
    | none => some s
    | some ring => some { s with ring := ring, published := s.published ++ [(channel, payload)] }
  | .poll =>
    match zedisRingPoll s.ring with
    | none => some s
    | some (slot, ring) => some { s with ring := ring, polled := s.polled ++ [slot] }

/-- The slot of the message with number `k`. -/
def messageSlot (k : Nat) (message : Bytes × Bytes) : RingSlot :=
  ⟨(cstr message.1).take 63, message.2, k.toUInt64⟩

/-- **The invariant of a ring of `2 ^ e` slots.** -/
structure QueueInv (e : Nat) (s : RingLog) : Prop where
  capacity : s.ring.capacity.toNat = 2 ^ e
  written : s.ring.writeSeq.toNat = s.published.length
  read : s.ring.readSeq.toNat = s.polled.length
  ordered : s.polled.length ≤ s.published.length
  room : s.published.length ≤ s.polled.length + 2 ^ e
  contents : s.polled ++ ringContents s.ring.slots (2 ^ e) s.polled.length
    (s.published.length - s.polled.length) = s.published.mapIdx messageSlot

section Calls

variable {e : Nat} {s next : RingLog} {channel payload : Bytes}

theorem QueueInv.unread (inv : QueueInv e s) :
    (s.ring.writeSeq - s.ring.readSeq).toNat = s.published.length - s.polled.length := by
  have ordered : s.ring.readSeq ≤ s.ring.writeSeq := by
    rw [UInt64.le_iff_toNat_le, inv.written, inv.read]
    exact inv.ordered
  rw [UInt64.toNat_sub_of_le _ _ ordered, inv.written, inv.read]

/-- There is room for a message unless `capacity` are unread. -/
theorem QueueInv.full_iff (inv : QueueInv e s) :
    s.ring.capacity ≤ s.ring.writeSeq - s.ring.readSeq ↔
      s.published.length = s.polled.length + 2 ^ e := by
  have ordered := inv.ordered
  have room := inv.room
  rw [UInt64.le_iff_toNat_le, inv.unread, inv.capacity]
  omega

/-- **A short message is refused exactly if the ring is full.** -/
theorem QueueInv.publish_none_iff (inv : QueueInv e s) (channel : Bytes)
    (short : payload.length ≤ zedisRingMsgMax) :
    zedisRingPublish s.ring channel payload = none ↔
      s.published.length = s.polled.length + 2 ^ e := by
  rw [← inv.full_iff]
  constructor
  · intro refused
    by_contra notFull
    obtain ⟨after, taken⟩ := zedisRingPublish_of_room channel short (UInt64.not_le.mp notFull)
    rw [refused] at taken
    cases taken
  · intro full
    rw [zedisRingPublish, if_neg (Nat.not_lt.mpr short)]
    exact if_pos full

/-- **A poll fails exactly if nothing is unread.** -/
theorem QueueInv.poll_none_iff (inv : QueueInv e s) :
    zedisRingPoll s.ring = none ↔ s.published.length = s.polled.length := by
  have ordered := inv.ordered
  have same : s.ring.writeSeq ≤ s.ring.readSeq ↔ s.published.length = s.polled.length := by
    rw [UInt64.le_iff_toNat_le, inv.written, inv.read]
    omega
  rw [← same]
  constructor
  · intro failed
    by_contra more
    rw [zedisRingPoll] at failed
    exact absurd (failed.symm.trans (if_neg more)) nofun
  · intro empty
    rw [zedisRingPoll]
    exact if_pos empty

theorem QueueInv.publish (inv : QueueInv e s) {ring : ZedisRingBuffer}
    (taken : zedisRingPublish s.ring channel payload = some ring)
    (few : s.published.length + 1 < 2 ^ 64) :
    QueueInv e { s with ring := ring, published := s.published ++ [(channel, payload)] } := by
  obtain ⟨short, room, sameCapacity, sameRead, nextWrite⟩ := zedisRingPublish_eq_some taken
  have notFull : ¬ s.published.length = s.polled.length + 2 ^ e := fun full =>
    absurd (inv.full_iff.mpr full) (UInt64.not_le.mpr room)
  have ordered := inv.ordered
  have below := inv.room
  have slots : ring.slots = Function.update s.ring.slots
      (slotAt (2 ^ e) s.polled.length (s.published.length - s.polled.length))
      (messageSlot s.published.length (channel, payload)) := by
    have number : s.ring.writeSeq = s.published.length.toUInt64 := by
      rw [← inv.written]
      exact UInt64.ofNat_toNat.symm
    rw [zedisRingPublish, if_neg (Nat.not_lt.mpr short)] at taken
    obtain ⟨-, same⟩ := Option.ite_none_left_eq_some.mp taken
    obtain rfl := Option.some.inj same
    rw [slotAt, Nat.add_sub_cancel' ordered, ← inv.written, ← slotIndex_eq_mod inv.capacity, messageSlot,
      inv.written, ← number]
  refine ⟨sameCapacity ▸ inv.capacity, ?_, sameRead ▸ inv.read, ?_, ?_, ?_⟩
  · rw [nextWrite, UInt64.toNat_add, inv.written, UInt64.toNat_one, Nat.mod_eq_of_lt few,
      List.length_append, List.length_singleton]
  · rw [List.length_append, List.length_singleton]
    exact Nat.le_succ_of_le ordered
  · rw [List.length_append, List.length_singleton]
    dsimp only
    omega
  · dsimp only
    rw [List.length_append, List.length_singleton, Nat.sub_add_comm ordered, slots,
      ringContents_push (by omega), ← List.append_assoc, inv.contents, List.mapIdx_concat]

theorem QueueInv.poll (inv : QueueInv e s) {slot : RingSlot} {ring : ZedisRingBuffer}
    (taken : zedisRingPoll s.ring = some (slot, ring)) (few : s.published.length < 2 ^ 64) :
    QueueInv e { s with ring := ring, polled := s.polled ++ [slot] } := by
  have notEmpty : ¬ s.published.length = s.polled.length := fun empty => by
    rw [inv.poll_none_iff.mpr empty] at taken
    cases taken
  have ordered := inv.ordered
  have room := inv.room
  obtain ⟨-, same⟩ := Option.ite_none_left_eq_some.mp taken
  obtain ⟨rfl, rfl⟩ := Prod.mk.inj (Option.some.inj same)
  have first : s.ring.slots (slotIndex s.ring s.ring.readSeq) =
      s.ring.slots (slotAt (2 ^ e) s.polled.length 0) := by
    rw [slotIndex_eq_mod inv.capacity, inv.read, slotAt, Nat.add_zero]
  refine ⟨inv.capacity, inv.written, ?_, ?_, ?_, ?_⟩
  · rw [List.length_append, List.length_singleton, UInt64.toNat_add, inv.read, UInt64.toNat_one,
      Nat.mod_eq_of_lt (by omega)]
  · rw [List.length_append, List.length_singleton]
    dsimp only
    omega
  · rw [List.length_append, List.length_singleton]
    dsimp only
    omega
  · have contents := inv.contents
    dsimp only
    rw [show s.published.length - s.polled.length = s.published.length - (s.polled.length + 1) + 1 by omega,
      ringContents_succ] at contents
    rw [List.length_append, List.length_singleton, first, List.append_assoc, List.singleton_append]
    exact contents

/-- **A call keeps the invariant**, and publishes at most one message. -/
theorem QueueInv.step (inv : QueueInv e s) {op : RingOp} (taken : ringStep s op = some next)
    (few : s.published.length + (if op.publishes then 1 else 0) < 2 ^ 64) :
    QueueInv e next ∧ next.published.length ≤ s.published.length + if op.publishes then 1 else 0 := by
  cases op with
  | publish channel payload =>
    rw [ringStep] at taken
    cases published : zedisRingPublish s.ring channel payload with
    | none =>
      rw [published] at taken
      cases taken
      exact ⟨inv, Nat.le_add_right _ _⟩
    | some ring =>
      rw [published] at taken
      cases taken
      exact ⟨inv.publish published few, (List.length_append ..).le⟩
  | poll =>
    rw [ringStep] at taken
    cases polled : zedisRingPoll s.ring with
    | none =>
      rw [polled] at taken
      cases taken
      exact ⟨inv, Nat.le_add_right _ _⟩
    | some result =>
      rw [polled] at taken
      cases taken
      exact ⟨inv.poll polled few, Nat.le_add_right _ _⟩

end Calls

/-! ### Runs -/

section Runs

variable {arena arena' : ZedisArena} {requested : UInt64} {start : ZedisRingBuffer}

theorem QueueInv.init (high : requested.toNat ≤ 2 ^ 63)
    (made : zedisRingInit arena requested = some (start, arena')) :
    QueueInv (capacityLog requested) ⟨start, [], []⟩ := by
  obtain ⟨-, made⟩ := Option.ite_none_left_eq_some.mp made
  obtain ⟨granted, -, same⟩ := Option.map_eq_some_iff.mp made
  cases same
  exact ⟨(nextPowerOfTwo_eq high).1, rfl, rfl, Nat.le_refl _, Nat.zero_le _, rfl⟩

theorem queueInv_of_run (high : requested.toNat ≤ 2 ^ 63)
    (made : zedisRingInit arena requested = some (start, arena')) {ops : List RingOp} {s : RingLog}
    (run : Run ringStep Always ⟨start, [], []⟩ ops s) (few : ops.countP RingOp.publishes < 2 ^ 64) :
    QueueInv (capacityLog requested) s ∧ s.published.length ≤ ops.countP RingOp.publishes := by
  have counted := run.history
    (fun past s => past.countP RingOp.publishes < 2 ^ 64 →
      QueueInv (capacityLog requested) s ∧ s.published.length ≤ past.countP RingOp.publishes)
    (fun past s op next held _ taken few => by
      rw [List.countP_append, List.countP_singleton] at few ⊢
      obtain ⟨inv, bound⟩ := held (by omega)
      obtain ⟨kept, grown⟩ := inv.step taken (by omega)
      exact ⟨kept, by omega⟩)
    (show ([] : List RingOp).countP RingOp.publishes < 2 ^ 64 → _ from
      fun _ => ⟨.init high made, Nat.zero_le _⟩)
  exact counted few

/-- The `k`-th slot that was polled is that of the `k`-th message. -/
theorem QueueInv.polled_get {e : Nat} {s : RingLog} (inv : QueueInv e s) (few : s.published.length < 2 ^ 64)
    {k : Nat} {slot : RingSlot} (polled : s.polled[k]? = some slot) :
    ∃ channel payload, s.published[k]? = some (channel, payload) ∧ slot.payload = payload ∧
      slot.channel = (cstr channel).take 63 ∧ slot.seq.toNat = k := by
  have inside : k < s.polled.length := (List.getElem?_eq_some_iff.mp polled).1
  have whole := congrArg (fun slots : List RingSlot => slots[k]?) inv.contents
  simp only [List.getElem?_append_left inside, polled, List.getElem?_mapIdx] at whole
  obtain ⟨message, published, rfl⟩ := Option.map_eq_some_iff.mp whole.symm
  refine ⟨message.1, message.2, published, rfl, rfl, ?_⟩
  have ordered := inv.ordered
  exact UInt64.toNat_ofNat_of_lt' (by unfold UInt64.size; omega)

end Runs

/-- **The log of a queue** of `capacity` messages: the `k`-th poll has returned the `k`-th message, and a
call fails exactly if the queue is full, or empty, and then changes nothing. -/
structure IsQueue (capacity : UInt64) (s : RingLog) : Prop where
  capacity_eq : s.ring.capacity = capacity
  fifo : ∀ (k : Nat) (slot : RingSlot), s.polled[k]? = some slot →
    ∃ channel payload, s.published[k]? = some (channel, payload) ∧ slot.payload = payload ∧
      slot.channel = (cstr channel).take 63 ∧ slot.seq.toNat = k
  full : ∀ channel payload, payload.length ≤ zedisRingMsgMax →
    (zedisRingPublish s.ring channel payload = none ↔
      s.published.length = s.polled.length + capacity.toNat)
  empty : zedisRingPoll s.ring = none ↔ s.published.length = s.polled.length
  refused : ∀ channel payload, zedisRingPublish s.ring channel payload = none →
    ringStep s (.publish channel payload) = some s
  missed : zedisRingPoll s.ring = none → ringStep s .poll = some s

/-- **The ring is a bounded queue**, whose capacity is the requested one rounded up to a power of two. -/
theorem ring_is_queue {arena arena' : ZedisArena} {requested : UInt64} (high : requested.toNat ≤ 2 ^ 63)
    {start : ZedisRingBuffer} (made : zedisRingInit arena requested = some (start, arena'))
    {ops : List RingOp} {s : RingLog} (run : Run ringStep Always ⟨start, [], []⟩ ops s)
    (few : ops.countP RingOp.publishes < 2 ^ 64) : IsQueue (nextPowerOfTwo requested) s := by
  obtain ⟨inv, bound⟩ := queueInv_of_run high made run few
  have capacity := (nextPowerOfTwo_eq high).1
  refine ⟨UInt64.toNat_inj.mp (inv.capacity.trans capacity.symm), fun k slot polled => ?_,
    fun channel payload short => ?_, inv.poll_none_iff, fun channel payload failed => ?_, fun failed => ?_⟩
  · exact inv.polled_get (bound.trans_lt few) polled
  · rw [capacity]
    exact inv.publish_none_iff channel short
  · rw [ringStep, failed]
  · rw [ringStep, failed]

/-- A ring of two slots whose second slot is used twice. -/
theorem ring_is_queue_wrapped : ∃ start arena' s,
    zedisRingInit ⟨4096, 0⟩ 2 = some (start, arena') ∧
      Run ringStep Always ⟨start, [], []⟩ [.publish [97] [1], .publish [98] [2], .publish [99] [3], .poll,
        .publish [100] [4], .poll, .poll, .poll] s ∧
      s.polled.map RingSlot.payload = [[1], [2], [4]] ∧ IsQueue (nextPowerOfTwo 2) s := by
  let ops : List RingOp := [.publish [97] [1], .publish [98] [2], .publish [99] [3], .poll,
    .publish [100] [4], .poll, .poll, .poll]
  have seen : ((zedisRingInit ⟨4096, 0⟩ 2).bind fun made => (replay ringStep ⟨made.1, [], []⟩ ops).map
      fun s => s.polled.map RingSlot.payload) = some [[1], [2], [4]] := by decide +kernel
  obtain ⟨⟨start, arena'⟩, made, seen⟩ := Option.bind_eq_some_iff.mp seen
  obtain ⟨s, returned, payloads⟩ := Option.map_eq_some_iff.mp seen
  have run : Run ringStep Always ⟨start, [], []⟩ ops s := Run.of_replay (fun _ _ _ => trivial) returned
  exact ⟨start, arena', s, made, run, payloads, ring_is_queue (by decide) made run (by decide)⟩

end Zedis.RingBuffer

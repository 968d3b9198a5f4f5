/-
**The ring of published messages (`src/ring_buffer.c`, `include/ring_buffer.h`).**

A publisher writes at `write_seq`, a poller reads at `read_seq`; both are 64-bit counters, and a slot
is found by the low bits of a counter, the capacity being a power of two. A publish is refused when the
message is too long or when `capacity` messages wait to be polled.
-/

import Zedis.Arena.Regions
import Zedis.Lib.Bytes
import Mathlib.Logic.Function.Basic

namespace Zedis.RingBuffer

open Zedis.Lib Zedis.Arena

/-- `ZEDIS_RING_MSG_MAX`. -/
def zedisRingMsgMax : Nat := 512

/-- `sizeof(ring_slot_t)`. -/
def ringSlotSize : Nat := 592

/-- `ring_slot_t`; `channel` is a C string of at most 63 bytes, `payload` the first `payload_len` bytes
of its array. -/
structure RingSlot where
  channel : Bytes
  payload : Bytes
  seq : UInt64
deriving DecidableEq, Repr

/-- A slot of zeroed memory. -/
def zeroSlot : RingSlot := ⟨[], [], 0⟩

/-- `zedis_ring_buffer_t`. -/
structure ZedisRingBuffer where
  slots : Nat → RingSlot
  capacity : UInt64
  writeSeq : UInt64
  readSeq : UInt64

/-- `next_power_of_two`. -/
def nextPowerOfTwo (v : UInt64) : UInt64 :=
  if v < 2 then 2
  else
    let v := v - 1
    let v := v ||| v >>> 1
    let v := v ||| v >>> 2
    let v := v ||| v >>> 4
    let v := v ||| v >>> 8
    let v := v ||| v >>> 16
    let v := v ||| v >>> 32
    v + 1

/-- `zedis_ring_init`: `none` is the return value `-1`. -/
def zedisRingInit (arena : ZedisArena) (capacity : UInt64) : Option (ZedisRingBuffer × ZedisArena) :=
  if capacity = 0 then none
  else
    let cap := nextPowerOfTwo capacity
    (zedisArenaCalloc arena cap.toNat ringSlotSize 64).map fun (_, arena) =>
      (⟨fun _ => zeroSlot, cap, 0, 0⟩, arena)

/-- The slot of a sequence number. -/
def slotIndex (ring : ZedisRingBuffer) (seq : UInt64) : Nat := (seq &&& (ring.capacity - 1)).toNat

/-- `zedis_ring_publish`: `none` is the return value `-1`. -/
def zedisRingPublish (ring : ZedisRingBuffer) (channel payload : Bytes) : Option ZedisRingBuffer :=
  if payload.length > zedisRingMsgMax then none
  else
    let seq := ring.writeSeq
    if seq - ring.readSeq ≥ ring.capacity then none
    else
      some { ring with
        slots := Function.update ring.slots (slotIndex ring seq) ⟨(cstr channel).take 63, payload, seq⟩
        writeSeq := seq + 1 }

/-- `zedis_ring_poll`: `none` is the return value `-1`. -/
def zedisRingPoll (ring : ZedisRingBuffer) : Option (RingSlot × ZedisRingBuffer) :=
  let read := ring.readSeq
  if read ≥ ring.writeSeq then none
  else some (ring.slots (slotIndex ring read), { ring with readSeq := read + 1 })

end Zedis.RingBuffer

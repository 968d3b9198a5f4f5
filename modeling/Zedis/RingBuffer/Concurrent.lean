/-
**One publisher and one poller at the same time (`src/ring_buffer.c`).**

The counters of the ring are atomic, so that a thread may publish while another one polls. Here the two
calls are sequences of the memory accesses that they make, and these are interleaved in any way: the
loads of the two counters, the writes to the slot, the copy of its parts, and the stores of the
counters. While a slot is being written it may hold anything (`scribble`), so nothing depends on the
order or the size of the writes.

`ring_linearizable`: the calls answer as one after the other on a queue of `capacity` messages. An
accepted publish takes effect at its store of `write_seq` and an accepted poll at its store of
`read_seq`; a refused publish at its load of `read_seq` and a refused poll at its load of `write_seq`.
This needs the copy of the slot to come before the store of `read_seq` (`Orderly`). The store is a
relaxed one, which does not keep this order; if it comes first, a poll returns a mixture of two messages
(`early_store_tears`).
-/

import Zedis.Lib.Simulation
import Zedis.RingBuffer.Queue

namespace Zedis.RingBuffer

open Zedis.Lib Zedis.Arena

/-! ### The two calls -/

/-- Where `zedis_ring_publish` stands: not called; after the load of `write_seq`; writing the slot, as
there was room; before the store of `write_seq`. -/
inductive PublisherAt
  | idle
  | loaded (channel payload : Bytes) (seq : UInt64)
  | writing (channel payload : Bytes) (seq : UInt64)
  | written (channel payload : Bytes) (seq : UInt64)
deriving DecidableEq, Repr

/-- The parts of the slot that `zedis_ring_poll` has copied. -/
structure Copied where
  channel : Option Bytes
  payload : Option Bytes
  seq : Option UInt64
deriving DecidableEq, Repr

/-- Nothing is copied yet. -/
def Copied.nothing : Copied := ⟨none, none, none⟩

/-- The copy, when it is complete. -/
def Copied.slot (copied : Copied) : Option RingSlot :=
  copied.channel.bind fun channel => copied.payload.bind fun payload => copied.seq.map fun seq =>
    ⟨channel, payload, seq⟩

/-- Where `zedis_ring_poll` stands: not called; after the load of `read_seq`; copying the slot, as there
was one to read; after the store of `read_seq`. -/
inductive PollerAt
  | idle
  | loaded (read : UInt64)
  | copying (read : UInt64) (copied : Copied)
  | stored (read : UInt64) (copied : Copied)
deriving DecidableEq, Repr

/-- A ring with its two threads. -/
structure SharedRing where
  ring : ZedisRingBuffer
  publisher : PublisherAt
  poller : PollerAt

/-- An access to the memory, or the start or the end of a call. -/
inductive Access
  | publish (channel payload : Bytes)
  | loadReadSeq
  | scribble (slot : RingSlot)
  | complete
  | storeWriteSeq
  | poll
  | loadWriteSeq
  | copyChannel
  | copyPayload
  | copySeq
  | storeReadSeq
  | returns
deriving DecidableEq, Repr

/-- The ring with the contents of a slot. -/
def setSlot (ring : ZedisRingBuffer) (seq : UInt64) (slot : RingSlot) : ZedisRingBuffer :=
  { ring with slots := Function.update ring.slots (slotIndex ring seq) slot }

/-- The slot that is written for a message. -/
def filledSlot (channel payload : Bytes) (seq : UInt64) : RingSlot :=
  ⟨(cstr channel).take 63, payload, seq⟩

/-- The next access of `zedis_ring_publish`. -/
def publisherStep (s : SharedRing) : Access → Option SharedRing
  | .publish channel payload =>
    match s.publisher with
    | .idle =>
      if payload.length > zedisRingMsgMax then some s
      else some { s with publisher := .loaded channel payload s.ring.writeSeq }
    | _ => none
  | .loadReadSeq =>
    match s.publisher with
    | .loaded channel payload seq =>
      if seq - s.ring.readSeq ≥ s.ring.capacity then some { s with publisher := .idle }
      else some { s with publisher := .writing channel payload seq }
    | _ => none
  | .scribble slot =>
    match s.publisher with
    | .writing _ _ seq => some { s with ring := setSlot s.ring seq slot }
    | _ => none
  | .complete =>
    match s.publisher with
    | .writing channel payload seq =>
      some { s with
        ring := setSlot s.ring seq (filledSlot channel payload seq)
        publisher := .written channel payload seq }
    | _ => none
  | .storeWriteSeq =>
    match s.publisher with
    | .written _ _ seq => some { s with ring := { s.ring with writeSeq := seq + 1 }, publisher := .idle }
    | _ => none
  | _ => none

/-- A part of the slot is copied, once. -/
def copyPart (s : SharedRing) (copy : RingSlot → Copied → Option Copied) : Option SharedRing :=
  match s.poller with
  | .copying read copied =>
    (copy (s.ring.slots (slotIndex s.ring read)) copied).map fun copied =>
      { s with poller := .copying read copied }
  | .stored read copied =>
    (copy (s.ring.slots (slotIndex s.ring read)) copied).map fun copied =>
      { s with poller := .stored read copied }
  | _ => none

def copyChannel (slot : RingSlot) (copied : Copied) : Option Copied :=
  if copied.channel.isSome then none else some { copied with channel := some slot.channel }

def copyPayload (slot : RingSlot) (copied : Copied) : Option Copied :=
  if copied.payload.isSome then none else some { copied with payload := some slot.payload }

def copySeq (slot : RingSlot) (copied : Copied) : Option Copied :=
  if copied.seq.isSome then none else some { copied with seq := some slot.seq }

/-- The next access of `zedis_ring_poll`. The store of `read_seq` is relaxed, so the copy may still go
on after it. -/
def pollerStep (s : SharedRing) : Access → Option SharedRing
  | .poll =>
    match s.poller with
    | .idle => some { s with poller := .loaded s.ring.readSeq }
    | _ => none
  | .loadWriteSeq =>
    match s.poller with
    | .loaded read =>
      if read ≥ s.ring.writeSeq then some { s with poller := .idle }
      else some { s with poller := .copying read .nothing }
    | _ => none
  | .copyChannel => copyPart s copyChannel
  | .copyPayload => copyPart s copyPayload
  | .copySeq => copyPart s copySeq
  | .storeReadSeq =>
    match s.poller with
    | .copying read copied =>
      some { s with ring := { s.ring with readSeq := read + 1 }, poller := .stored read copied }
    | _ => none
  | .returns =>
    match s.poller with
    | .stored _ copied => if copied.slot.isSome then some { s with poller := .idle } else none
    | _ => none
  | _ => none

/-- One access of one of the two threads. -/
def sharedStep (s : SharedRing) (access : Access) : Option SharedRing :=
  (publisherStep s access).or (pollerStep s access)

/-- The two threads before their first calls. -/
def sharedStart (ring : ZedisRingBuffer) : SharedRing := ⟨ring, .idle, .idle⟩

/-! ### The queue -/

/-- What a call returns. -/
inductive Answer
  | done
  | refused
  | message (slot : RingSlot)
deriving DecidableEq, Repr

/-- **A queue of `capacity` messages**: the number of the next message, and the ones that wait. -/
inductive QueueAllows (capacity : Nat) : Nat × List RingSlot → RingOp → Answer → Nat × List RingSlot → Prop
  | publish (n : Nat) (waiting : List RingSlot) (channel payload : Bytes) :
      payload.length ≤ zedisRingMsgMax → waiting.length < capacity →
      QueueAllows capacity (n, waiting) (.publish channel payload) .done
        (n + 1, waiting ++ [messageSlot n (channel, payload)])
  | publishRefused (n : Nat) (waiting : List RingSlot) (channel payload : Bytes) :
      zedisRingMsgMax < payload.length ∨ waiting.length = capacity →
      QueueAllows capacity (n, waiting) (.publish channel payload) .refused (n, waiting)
  | poll (n : Nat) (first : RingSlot) (waiting : List RingSlot) :
      QueueAllows capacity (n, first :: waiting) .poll (.message first) (n, waiting)
  | pollRefused (n : Nat) : QueueAllows capacity (n, []) .poll .refused (n, [])

/-- What an access decides: the call, and what it returns. -/
def decided (s : SharedRing) (access : Access) (_ : SharedRing) : List (RingOp × Answer) :=
  match access, s.publisher, s.poller with
  | .publish channel payload, _, _ =>
    if payload.length > zedisRingMsgMax then [(.publish channel payload, .refused)] else []
  | .loadReadSeq, .loaded channel payload seq, _ =>
    if seq - s.ring.readSeq ≥ s.ring.capacity then [(.publish channel payload, .refused)] else []
  | .storeWriteSeq, .written channel payload _, _ => [(.publish channel payload, .done)]
  | .loadWriteSeq, _, .loaded read => if read ≥ s.ring.writeSeq then [(.poll, .refused)] else []
  | .storeReadSeq, _, .copying _ copied => copied.slot.toList.map fun slot => (.poll, .message slot)
  | _, _, _ => []

/-- The copy of the poller is complete. -/
def PollerAt.complete : PollerAt → Bool
  | .copying _ copied => copied.slot.isSome
  | _ => true

/-- **The condition on an access**: the copy is complete when `read_seq` is stored, and `write_seq` does
not wrap around. -/
def Orderly (s : SharedRing) (access : Access) : Prop :=
  (access = .storeReadSeq → s.poller.complete = true) ∧
    (access = .storeWriteSeq → s.ring.writeSeq.toNat + 1 < 2 ^ 64)

instance (s : SharedRing) (access : Access) : Decidable (Orderly s access) :=
  inferInstanceAs (Decidable (_ ∧ _))

/-! ### The invariant -/

/-- What the publisher may rely on: it is the only one that writes `write_seq`, and room that it has seen
stays. -/
def PublisherOk (e : Nat) (ring : ZedisRingBuffer) (waiting : List RingSlot) : PublisherAt → Prop
  | .idle => True
  | .loaded _ payload seq => seq = ring.writeSeq ∧ payload.length ≤ zedisRingMsgMax
  | .writing _ payload seq =>
    seq = ring.writeSeq ∧ payload.length ≤ zedisRingMsgMax ∧ waiting.length < 2 ^ e
  | .written channel payload seq =>
    seq = ring.writeSeq ∧ payload.length ≤ zedisRingMsgMax ∧ waiting.length < 2 ^ e ∧
      ring.slots (slotIndex ring seq) = filledSlot channel payload seq

/-- The parts that are copied are those of the slot. -/
structure CopyOf (copied : Copied) (slot : RingSlot) : Prop where
  channel : ∀ channel, copied.channel = some channel → channel = slot.channel
  payload : ∀ payload, copied.payload = some payload → payload = slot.payload
  seq : ∀ seq, copied.seq = some seq → seq = slot.seq

/-- What the poller may rely on: it is the only one that writes `read_seq`, and a message that it has
seen stays. -/
def PollerOk (readSeq : UInt64) (waiting : List RingSlot) : PollerAt → Prop
  | .idle => True
  | .loaded read => read = readSeq
  | .copying read copied => read = readSeq ∧
      ∃ first rest, waiting = first :: rest ∧ CopyOf copied first
  | .stored _ copied => copied.slot.isSome = true

/-- **The ring holds the queue**, whatever the two threads are doing. -/
structure SharedInv (e : Nat) (s : SharedRing) (queue : Nat × List RingSlot) : Prop where
  capacity : s.ring.capacity.toNat = 2 ^ e
  number : s.ring.writeSeq.toNat = queue.1
  count : s.ring.readSeq.toNat + queue.2.length = queue.1
  room : queue.2.length ≤ 2 ^ e
  contents : ringContents s.ring.slots (2 ^ e) s.ring.readSeq.toNat queue.2.length = queue.2
  publisher : PublisherOk e s.ring queue.2 s.publisher
  poller : PollerOk s.ring.readSeq queue.2 s.poller

section Invariant

variable {e : Nat} {s next : SharedRing} {queue : Nat × List RingSlot}

/-- The slot of `write_seq` is behind the waiting messages. -/
theorem SharedInv.behind (inv : SharedInv e s queue) :
    slotIndex s.ring s.ring.writeSeq = slotAt (2 ^ e) s.ring.readSeq.toNat queue.2.length := by
  rw [slotIndex_eq_mod inv.capacity, slotAt, inv.count, inv.number]

/-- The slot of `read_seq` is that of the first waiting message. -/
theorem SharedInv.first (inv : SharedInv e s queue) {first : RingSlot} {rest : List RingSlot}
    (waiting : queue.2 = first :: rest) : s.ring.slots (slotIndex s.ring s.ring.readSeq) = first ∧
      ringContents s.ring.slots (2 ^ e) (s.ring.readSeq.toNat + 1) rest.length = rest := by
  have contents := inv.contents
  rw [waiting, List.length_cons, ringContents_succ] at contents
  obtain ⟨isFirst, others⟩ := List.cons.inj contents
  refine ⟨?_, others⟩
  rw [slotIndex_eq_mod inv.capacity, ← isFirst, slotAt, Nat.add_zero]

theorem SharedInv.unread (inv : SharedInv e s queue) :
    (s.ring.writeSeq - s.ring.readSeq).toNat = queue.2.length := by
  have count := inv.count
  have ordered : s.ring.readSeq ≤ s.ring.writeSeq := by
    rw [UInt64.le_iff_toNat_le, inv.number]
    omega
  rw [UInt64.toNat_sub_of_le _ _ ordered, inv.number]
  omega

/-- The publisher finds the ring full exactly if `capacity` messages wait. -/
theorem SharedInv.full_iff (inv : SharedInv e s queue) :
    s.ring.writeSeq - s.ring.readSeq ≥ s.ring.capacity ↔ queue.2.length = 2 ^ e := by
  have room := inv.room
  rw [ge_iff_le, UInt64.le_iff_toNat_le, inv.unread, inv.capacity]
  omega

/-- The poller finds the ring empty exactly if no message waits. -/
theorem SharedInv.empty_iff (inv : SharedInv e s queue) :
    s.ring.readSeq ≥ s.ring.writeSeq ↔ queue.2 = [] := by
  have count := inv.count
  rw [ge_iff_le, UInt64.le_iff_toNat_le, inv.number, ← List.length_eq_zero_iff]
  omega

/-- **A write to the slot of `write_seq`** is not seen in the queue. -/
theorem SharedInv.write (inv : SharedInv e s queue) (free : queue.2.length < 2 ^ e) (slot : RingSlot)
    {publisher : PublisherAt}
    (ok : PublisherOk e (setSlot s.ring s.ring.writeSeq slot) queue.2 publisher) :
    SharedInv e ⟨setSlot s.ring s.ring.writeSeq slot, publisher, s.poller⟩ queue := by
  refine ⟨inv.capacity, inv.number, inv.count, inv.room, ?_, ok, inv.poller⟩
  change ringContents (Function.update s.ring.slots (slotIndex s.ring s.ring.writeSeq) slot) (2 ^ e)
    s.ring.readSeq.toNat queue.2.length = queue.2
  rw [inv.behind, ringContents_behind free]
  exact inv.contents

/-- The publisher goes on without touching the ring. -/
theorem SharedInv.setPublisher (inv : SharedInv e s queue) {publisher : PublisherAt}
    (ok : PublisherOk e s.ring queue.2 publisher) : SharedInv e { s with publisher := publisher } queue :=
  ⟨inv.capacity, inv.number, inv.count, inv.room, inv.contents, ok, inv.poller⟩

/-- The poller goes on without touching the ring. -/
theorem SharedInv.setPoller (inv : SharedInv e s queue) {poller : PollerAt}
    (ok : PollerOk s.ring.readSeq queue.2 poller) : SharedInv e { s with poller := poller } queue :=
  ⟨inv.capacity, inv.number, inv.count, inv.room, inv.contents, inv.publisher, ok⟩

/-- **The store of `write_seq`** puts the message behind the waiting ones. -/
theorem SharedInv.push (inv : SharedInv e s queue) {channel payload : Bytes} {seq : UInt64}
    (isAt : s.publisher = .written channel payload seq) (fits : s.ring.writeSeq.toNat + 1 < 2 ^ 64) :
    payload.length ≤ zedisRingMsgMax ∧ queue.2.length < 2 ^ e ∧
      SharedInv e ⟨{ s.ring with writeSeq := seq + 1 }, .idle, s.poller⟩
        (queue.1 + 1, queue.2 ++ [messageSlot queue.1 (channel, payload)]) := by
  have publisher := inv.publisher
  rw [isAt] at publisher
  obtain ⟨rfl, short, free, filled⟩ := publisher
  have message : filledSlot channel payload s.ring.writeSeq = messageSlot queue.1 (channel, payload) := by
    rw [filledSlot, messageSlot, ← inv.number]
    exact congrArg _ UInt64.ofNat_toNat.symm
  refine ⟨short, free, inv.capacity, ?_, ?_, ?_, ?_, trivial, ?_⟩
  · change (s.ring.writeSeq + 1).toNat = queue.1 + 1
    rw [UInt64.toNat_add, UInt64.toNat_one, Nat.mod_eq_of_lt fits, inv.number]
  · rw [List.length_append, List.length_singleton, ← Nat.add_assoc]
    exact congrArg (· + 1) inv.count
  · rw [List.length_append, List.length_singleton]
    exact free
  · change ringContents s.ring.slots (2 ^ e) s.ring.readSeq.toNat _ = _
    rw [List.length_append, List.length_singleton, ringContents_snoc, inv.contents, ← inv.behind, filled,
      message]
  · -- what the poller has seen stays in front
    have poller := inv.poller
    cases isPoller : s.poller with
    | idle => trivial
    | loaded read =>
      rw [isPoller] at poller
      exact poller
    | copying read copied =>
      rw [isPoller] at poller
      obtain ⟨isRead, first, rest, waiting, copy⟩ := poller
      refine ⟨isRead, first, rest ++ [messageSlot queue.1 (channel, payload)], ?_, copy⟩
      rw [waiting, List.cons_append]
    | stored read copied =>
      rw [isPoller] at poller
      exact poller

/-- **The store of `read_seq`** takes the first message. -/
theorem SharedInv.pop (inv : SharedInv e s queue) {read : UInt64} {copied : Copied}
    (isAt : s.poller = .copying read copied) {slot : RingSlot} (complete : copied.slot = some slot) :
    ∃ rest, queue.2 = slot :: rest ∧
      SharedInv e ⟨{ s.ring with readSeq := read + 1 }, s.publisher, .stored read copied⟩
        (queue.1, rest) := by
  have poller := inv.poller
  rw [isAt] at poller
  obtain ⟨rfl, first, rest, waiting, copy⟩ := poller
  have isFirst : first = slot := by
    obtain ⟨channel, isChannel, complete⟩ := Option.bind_eq_some_iff.mp complete
    obtain ⟨payload, isPayload, complete⟩ := Option.bind_eq_some_iff.mp complete
    obtain ⟨seq, isSeq, rfl⟩ := Option.map_eq_some_iff.mp complete
    rw [copy.channel channel isChannel, copy.payload payload isPayload, copy.seq seq isSeq]
  subst isFirst
  have count := inv.count
  rw [waiting, List.length_cons] at count
  have next : (s.ring.readSeq + 1).toNat = s.ring.readSeq.toNat + 1 := by
    have below : queue.1 < 2 ^ 64 := by
      rw [← inv.number]
      exact s.ring.writeSeq.toNat_lt
    rw [UInt64.toNat_add, UInt64.toNat_one, Nat.mod_eq_of_lt (by omega)]
  have room := inv.room
  rw [waiting, List.length_cons] at room
  refine ⟨rest, waiting, inv.capacity, inv.number, ?_, ?_, ?_, ?_, ?_⟩
  · change (s.ring.readSeq + 1).toNat + rest.length = queue.1
    omega
  · exact (Nat.le_succ _).trans room
  · change ringContents s.ring.slots (2 ^ e) (s.ring.readSeq + 1).toNat rest.length = rest
    rw [next]
    exact (inv.first waiting).2
  · -- there is more room than the publisher has seen
    have publisher := inv.publisher
    have fewer : rest.length < 2 ^ e := room
    cases isPublisher : s.publisher with
    | idle => trivial
    | loaded channel payload seq =>
      rw [isPublisher] at publisher
      exact publisher
    | writing channel payload seq =>
      rw [isPublisher] at publisher
      exact ⟨publisher.1, publisher.2.1, fewer⟩
    | written channel payload seq =>
      rw [isPublisher] at publisher
      exact ⟨publisher.1, publisher.2.1, fewer, publisher.2.2.2⟩
  · change copied.slot.isSome = true
    rw [complete]
    rfl

/-- A copy of one more part is a copy. -/
theorem copyPart_ok (inv : SharedInv e s queue) (copy : RingSlot → Copied → Option Copied)
    (keeps : ∀ slot copied after, CopyOf copied slot → copy slot copied = some after → CopyOf after slot)
    (once : ∀ slot copied, copied.slot.isSome = true → copy slot copied = none)
    (taken : copyPart s copy = some next) : SharedInv e next queue := by
  have poller := inv.poller
  unfold copyPart at taken
  split at taken
  · rename_i read copied isAt
    obtain ⟨after, isAfter, rfl⟩ := Option.map_eq_some_iff.mp taken
    rw [isAt] at poller
    obtain ⟨isRead, first, rest, waiting, isCopy⟩ := poller
    refine inv.setPoller ⟨isRead, first, rest, waiting, keeps first copied after isCopy ?_⟩
    rw [← (inv.first waiting).1, ← isRead]
    exact isAfter
  · rename_i read copied isAt
    obtain ⟨after, isAfter, rfl⟩ := Option.map_eq_some_iff.mp taken
    rw [isAt] at poller
    -- the copy was complete before the store
    rw [once _ copied poller] at isAfter
    cases isAfter
  · cases taken

/-- The parts of a complete copy are there. -/
theorem parts_of_slot {copied : Copied} (complete : copied.slot.isSome = true) :
    copied.channel.isSome = true ∧ copied.payload.isSome = true ∧ copied.seq.isSome = true := by
  obtain ⟨slot, isSlot⟩ := Option.isSome_iff_exists.mp complete
  obtain ⟨channel, isChannel, isSlot⟩ := Option.bind_eq_some_iff.mp isSlot
  obtain ⟨payload, isPayload, isSlot⟩ := Option.bind_eq_some_iff.mp isSlot
  obtain ⟨seq, isSeq, -⟩ := Option.map_eq_some_iff.mp isSlot
  rw [isChannel, isPayload, isSeq]
  exact ⟨rfl, rfl, rfl⟩

/-- **Every access of the publisher is one of the queue, or is not seen in it.** -/
theorem SharedInv.publisherStep (inv : SharedInv e s queue) {access : Access} (orderly : Orderly s access)
    (taken : publisherStep s access = some next) :
    ∃ queue', Behaves (QueueAllows (2 ^ e)) queue (decided s access next) queue' ∧ SharedInv e next queue' := by
  have publisher := inv.publisher
  obtain ⟨n, waiting⟩ := queue
  cases access with
  | publish channel payload =>
    rw [RingBuffer.publisherStep] at taken
    split at taken
    · split at taken
      · rename_i long
        cases taken
        refine ⟨(n, waiting), ?_, inv⟩
        simp only [decided, if_pos long]
        exact .single (.publishRefused n waiting channel payload (Or.inl long))
      · rename_i short
        cases taken
        refine ⟨(n, waiting), ?_, inv.setPublisher ⟨rfl, Nat.not_lt.mp short⟩⟩
        simp only [decided, if_neg short]
        exact .nil _
    · cases taken
  | loadReadSeq =>
    rw [RingBuffer.publisherStep] at taken
    split at taken
    · rename_i channel payload seq isAt
      rw [isAt] at publisher
      obtain ⟨rfl, short⟩ := publisher
      split at taken
      · rename_i full
        cases taken
        refine ⟨(n, waiting), ?_, inv.setPublisher trivial⟩
        simp only [decided, isAt, if_pos full]
        exact .single (.publishRefused n waiting channel payload (Or.inr (inv.full_iff.mp full)))
      · rename_i room
        cases taken
        have free : waiting.length < 2 ^ e :=
          lt_of_le_of_ne inv.room fun full => room (inv.full_iff.mpr full)
        refine ⟨(n, waiting), ?_, inv.setPublisher ⟨rfl, short, free⟩⟩
        simp only [decided, isAt, if_neg room]
        exact .nil _
    · cases taken
  | scribble slot =>
    rw [RingBuffer.publisherStep] at taken
    split at taken
    · rename_i channel payload seq isAt
      rw [isAt] at publisher
      obtain ⟨rfl, short, free⟩ := publisher
      cases taken
      refine ⟨(n, waiting), .nil _, inv.write free slot ?_⟩
      rw [isAt]
      exact ⟨rfl, short, free⟩
    · cases taken
  | complete =>
    rw [RingBuffer.publisherStep] at taken
    split at taken
    · rename_i channel payload seq isAt
      rw [isAt] at publisher
      obtain ⟨rfl, short, free⟩ := publisher
      cases taken
      refine ⟨(n, waiting), .nil _, inv.write free _ ⟨rfl, short, free, ?_⟩⟩
      exact Function.update_self ..
    · cases taken
  | storeWriteSeq =>
    rw [RingBuffer.publisherStep] at taken
    split at taken
    · rename_i channel payload seq isAt
      cases taken
      obtain ⟨short, free, kept⟩ := inv.push isAt (orderly.2 rfl)
      refine ⟨_, ?_, kept⟩
      simp only [decided, isAt]
      exact .single (.publish n waiting channel payload short free)
    · cases taken
  | _ => cases taken

/-- **Every access of the poller is one of the queue, or is not seen in it.** -/
theorem SharedInv.pollerStep (inv : SharedInv e s queue) {access : Access} (orderly : Orderly s access)
    (taken : pollerStep s access = some next) :
    ∃ queue', Behaves (QueueAllows (2 ^ e)) queue (decided s access next) queue' ∧ SharedInv e next queue' := by
  have poller := inv.poller
  obtain ⟨n, waiting⟩ := queue
  cases access with
  | poll =>
    rw [RingBuffer.pollerStep] at taken
    split at taken
    · cases taken
      exact ⟨(n, waiting), .nil _, inv.setPoller rfl⟩
    · cases taken
  | loadWriteSeq =>
    rw [RingBuffer.pollerStep] at taken
    split at taken
    · rename_i read isAt
      rw [isAt] at poller
      obtain rfl : read = s.ring.readSeq := poller
      split at taken
      · rename_i empty
        cases taken
        obtain rfl : waiting = [] := inv.empty_iff.mp empty
        refine ⟨(n, []), ?_, inv.setPoller trivial⟩
        simp only [decided, isAt, if_pos empty]
        exact .single (.pollRefused n)
      · rename_i more
        cases taken
        obtain ⟨first, rest, isWaiting⟩ : ∃ first rest, waiting = first :: rest :=
          List.exists_cons_of_ne_nil fun empty => more (inv.empty_iff.mpr empty)
        refine ⟨(n, waiting), ?_, inv.setPoller ⟨rfl, first, rest, isWaiting, ⟨nofun, nofun, nofun⟩⟩⟩
        simp only [decided, isAt, if_neg more]
        exact .nil _
    · cases taken
  | copyChannel =>
    refine ⟨(n, waiting), .nil _, copyPart_ok inv RingBuffer.copyChannel
      (fun slot copied after isCopy copies => ?_)
      (fun slot copied complete => if_pos (parts_of_slot complete).1) taken⟩
    obtain ⟨-, same⟩ := Option.ite_none_left_eq_some.mp copies
    obtain rfl := Option.some.inj same
    exact ⟨fun channel same => (Option.some.inj same).symm, isCopy.payload, isCopy.seq⟩
  | copyPayload =>
    refine ⟨(n, waiting), .nil _, copyPart_ok inv RingBuffer.copyPayload
      (fun slot copied after isCopy copies => ?_)
      (fun slot copied complete => if_pos (parts_of_slot complete).2.1) taken⟩
    obtain ⟨-, same⟩ := Option.ite_none_left_eq_some.mp copies
    obtain rfl := Option.some.inj same
    exact ⟨isCopy.channel, fun payload same => (Option.some.inj same).symm, isCopy.seq⟩
  | copySeq =>
    refine ⟨(n, waiting), .nil _, copyPart_ok inv RingBuffer.copySeq
      (fun slot copied after isCopy copies => ?_)
      (fun slot copied complete => if_pos (parts_of_slot complete).2.2) taken⟩
    obtain ⟨-, same⟩ := Option.ite_none_left_eq_some.mp copies
    obtain rfl := Option.some.inj same
    exact ⟨isCopy.channel, isCopy.payload, fun seq same => (Option.some.inj same).symm⟩
  | storeReadSeq =>
    rw [RingBuffer.pollerStep] at taken
    split at taken
    · rename_i read copied isAt
      cases taken
      have done := orderly.1 rfl
      rw [isAt] at done
      obtain ⟨slot, complete⟩ := Option.isSome_iff_exists.mp done
      obtain ⟨rest, isWaiting, kept⟩ := inv.pop isAt complete
      obtain rfl : waiting = slot :: rest := isWaiting
      refine ⟨_, ?_, kept⟩
      simp only [decided, isAt, complete]
      exact .single (.poll n slot rest)
    · cases taken
  | returns =>
    rw [RingBuffer.pollerStep] at taken
    split at taken
    · obtain ⟨-, same⟩ := Option.ite_none_right_eq_some.mp taken
      cases same
      exact ⟨(n, waiting), .nil _, inv.setPoller trivial⟩
    · cases taken
  | _ => cases taken

/-- **Every access is matched by the queue.** -/
theorem SharedInv.step (inv : SharedInv e s queue) {access : Access} (orderly : Orderly s access)
    (taken : sharedStep s access = some next) :
    ∃ queue', Behaves (QueueAllows (2 ^ e)) queue (decided s access next) queue' ∧ SharedInv e next queue' := by
  rcases Option.or_eq_some_iff.mp taken with published | ⟨-, polled⟩
  · exact inv.publisherStep orderly published
  · exact inv.pollerStep orderly polled

end Invariant

/-- **Publishes and polls are linearizable.** However the accesses of one publisher and one poller are
interleaved, what the calls return is what a queue of `capacity` messages allows, in the order in which
they take effect, each at one of its own accesses: no message is lost, doubled, reordered or torn. -/
theorem ring_linearizable {arena arena' : ZedisArena} {requested : UInt64}
    (high : requested.toNat ≤ 2 ^ 63) {start : ZedisRingBuffer}
    (made : zedisRingInit arena requested = some (start, arena')) {accesses : List Access}
    {last : SharedRing} (run : Run sharedStep Orderly (sharedStart start) accesses last) :
    ∃ queue, Behaves (QueueAllows (nextPowerOfTwo requested).toNat) (0, [])
      (observed sharedStep decided (sharedStart start) accesses) queue := by
  have init := QueueInv.init high made
  have unread : start.readSeq.toNat = 0 := init.read
  have empty : SharedInv (capacityLog requested) (sharedStart start) (0, []) := by
    refine ⟨init.capacity, init.written, ?_, Nat.zero_le _, rfl, trivial, trivial⟩
    change start.readSeq.toNat + 0 = 0
    rw [unread]
  rw [(nextPowerOfTwo_eq high).1]
  obtain ⟨queue, behaves, -⟩ := run.refines (SharedInv (capacityLog requested))
    (fun s queue access next inv orderly taken => by exact inv.step orderly taken) empty
  exact ⟨queue, behaves⟩

/-- A poll that comes too early, and one during which the next message is written. -/
def sampleAccesses : List Access :=
  [.publish [97] [1], .loadReadSeq, .scribble ⟨[97], [], 0⟩, .poll, .loadWriteSeq, .complete,
    .storeWriteSeq, .poll, .loadWriteSeq, .copyChannel, .publish [98] [2], .loadReadSeq,
    .scribble ⟨[98], [1], 7⟩, .copyPayload, .copySeq, .storeReadSeq, .complete, .returns, .storeWriteSeq]

theorem ring_linearizable_sample : ∃ start arena' last queue,
    zedisRingInit ⟨4096, 0⟩ 2 = some (start, arena') ∧
      Run sharedStep Orderly (sharedStart start) sampleAccesses last ∧
      observed sharedStep decided (sharedStart start) sampleAccesses =
        [(.poll, .refused), (.publish [97] [1], .done), (.poll, .message ⟨[97], [1], 0⟩),
          (.publish [98] [2], .done)] ∧
      Behaves (QueueAllows (nextPowerOfTwo 2).toNat) (0, [])
        (observed sharedStep decided (sharedStart start) sampleAccesses) queue := by
  have shown : ((zedisRingInit ⟨4096, 0⟩ 2).bind fun made =>
      (replay (fun s access => if Orderly s access then sharedStep s access else none)
        (sharedStart made.1) sampleAccesses).map fun _ =>
          observed sharedStep decided (sharedStart made.1) sampleAccesses) =
      some [(.poll, .refused), (.publish [97] [1], .done), (.poll, .message ⟨[97], [1], 0⟩),
        (.publish [98] [2], .done)] := by decide +kernel
  obtain ⟨⟨start, arena'⟩, made, returned⟩ := Option.bind_eq_some_iff.mp shown
  obtain ⟨last, replayed, seen⟩ := Option.map_eq_some_iff.mp returned
  have run : Run sharedStep Orderly (sharedStart start) sampleAccesses last := Run.of_guarded replayed
  obtain ⟨queue, behaves⟩ := ring_linearizable (by decide) made run
  exact ⟨start, arena', last, queue, made, run, seen, behaves⟩

/-- Two messages fill the ring; a poll copies the channel of the first one and stores `read_seq` before
the rest of the copy, and a third message takes the slot. -/
def tearingAccesses : List Access :=
  [.publish [97] [1], .loadReadSeq, .complete, .storeWriteSeq,
    .publish [98] [2], .loadReadSeq, .complete, .storeWriteSeq,
    .poll, .loadWriteSeq, .copyChannel, .storeReadSeq,
    .publish [99] [3], .loadReadSeq, .complete, .storeWriteSeq, .copyPayload, .copySeq]

/-- **With an early store a poll mixes two messages**: the channel of the first one with the payload and
the number of the third. -/
theorem early_store_tears : ∃ start arena' last,
    zedisRingInit ⟨4096, 0⟩ 2 = some (start, arena') ∧
      Run sharedStep Always (sharedStart start) tearingAccesses last ∧
      last.poller = .stored 0 ⟨some [97], some [3], some 2⟩ := by
  have shown : ((zedisRingInit ⟨4096, 0⟩ 2).bind fun made =>
      (replay sharedStep (sharedStart made.1) tearingAccesses).map SharedRing.poller) =
      some (.stored 0 ⟨some [97], some [3], some 2⟩) := by decide +kernel
  obtain ⟨⟨start, arena'⟩, made, returned⟩ := Option.bind_eq_some_iff.mp shown
  obtain ⟨last, replayed, seen⟩ := Option.map_eq_some_iff.mp returned
  exact ⟨start, arena', last, made, Run.of_replay (fun _ _ _ => trivial) replayed, seen⟩

end Zedis.RingBuffer

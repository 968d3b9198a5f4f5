/-
**What a reply sends.**

`Emits server ring after calls`: the state `after` has the invariant (`ServerInv`) and the memory of
`server`, the ring `ring`, and has made the calls `calls` of `conn_queue_write` since. Every `reply_*`
helper makes one call with the encoding of its value (`encodedCall`), if it fits: the fixed texts, the
integers and null always do, a bulk string of up to 4086 bytes does.
-/

import Zedis.Connection.Stream
import Zedis.Registry.Range
import Zedis.Resp.Printed
import Zedis.RingBuffer.Unpolled
import Zedis.Server.Model

namespace Zedis.Server

open Zedis.Lib Zedis.HashTable Zedis.Registry Zedis.Resp Zedis.Connection Zedis.RingBuffer

/-- **The invariant of a server.** -/
structure ServerInv (server : ZedisServer) : Prop where
  kv : TableInv server.kv
  registries : RegistriesInv server.toRegistries
  fds : (server.conns.map Conn.fd).Nodup
  counted : ∀ conn ∈ server.conns, Counted conn

/-- Since `server`, the calls `calls` were made. -/
structure Emits (server : ZedisServer) (ring : ZedisRingBuffer) (after : ZedisServer)
    (calls : List QueueCall) : Prop where
  inv : ServerInv after
  stack : after.stack = server.stack
  ring : after.ring = ring
  calls : after.calls = server.calls ++ calls

/-- A call with the encoding of a value, followed by a NUL. -/
def encodedCall (fd size : Nat) (value : RespValue Bytes) : QueueCall :=
  ⟨fd, size, encode value ++ [0], (encode value).length, false⟩

/-! ### Connections -/

section Conns

variable {conns : List Conn} {fd : Nat} {change : Conn → Conn}

/-- A change that keeps the descriptors keeps their list. -/
theorem changeConn_fds (same : ∀ conn ∈ conns, conn.fd = fd → (change conn).fd = fd) :
    (changeConn conns fd change).map Conn.fd = conns.map Conn.fd := by
  rw [changeConn, List.map_map]
  refine List.map_congr_left fun conn member => ?_
  change (if conn.fd = fd then change conn else conn).fd = conn.fd
  split
  · rename_i isTarget
    rw [same conn member isTarget, isTarget]
  · rfl

theorem mem_changeConn {after : Conn} (member : after ∈ changeConn conns fd change) :
    ∃ conn ∈ conns, conn.fd = fd ∧ after = change conn ∨ conn.fd ≠ fd ∧ after = conn := by
  obtain ⟨conn, old, rfl⟩ := List.mem_map.mp member
  by_cases isTarget : conn.fd = fd
  · exact ⟨conn, old, Or.inl ⟨isTarget, if_pos isTarget⟩⟩
  · exact ⟨conn, old, Or.inr ⟨isTarget, if_neg isTarget⟩⟩

/-- The connection with a descriptor, after a change of it. -/
theorem find?_changeConn (same : ∀ conn ∈ conns, conn.fd = fd → (change conn).fd = fd) :
    (changeConn conns fd change).find? (fun conn => conn.fd == fd) =
      (conns.find? fun conn => conn.fd == fd).map change := by
  induction conns with
  | nil => rfl
  | cons conn conns ih =>
    rw [changeConn, List.map_cons, List.find?_cons, List.find?_cons]
    by_cases isTarget : conn.fd = fd
    · have changed : (change conn).fd = fd := same conn List.mem_cons_self isTarget
      rw [if_pos isTarget, beq_iff_eq.mpr changed, beq_iff_eq.mpr isTarget]
      rfl
    · rw [if_neg isTarget, beq_eq_false_iff_ne.mpr isTarget]
      exact ih fun later member => same later (List.mem_cons_of_mem conn member)

/-- A change of one connection keeps the invariant. -/
theorem ServerInv.changeConn {server : ZedisServer} (inv : ServerInv server) (fd : Nat)
    (change : Conn → Conn) (same : ∀ conn ∈ server.conns, conn.fd = fd → (change conn).fd = fd)
    (counted : ∀ conn ∈ server.conns, conn.fd = fd → Counted (change conn)) :
    ServerInv { server with conns := changeConn server.conns fd change } where
  kv := inv.kv
  registries := inv.registries
  fds := by
    change ((Server.changeConn server.conns fd change).map Conn.fd).Nodup
    rw [changeConn_fds same]
    exact inv.fds
  counted := fun after member => by
    obtain ⟨conn, old, ⟨isTarget, rfl⟩ | ⟨-, rfl⟩⟩ := mem_changeConn member
    · exact counted conn old isTarget
    · exact inv.counted after old

end Conns

/-! ### Calls -/

section Calls

variable {server after : ZedisServer} {ring : ZedisRingBuffer} {calls : List QueueCall}

theorem length_readBuffer (stack : Nat → UInt8) (written : Bytes) (n : Nat) :
    (readBuffer stack written n).length = n :=
  length_segment _ _ _

/-- What a call reads, if it was written. -/
theorem readBuffer_of_front {text written : Bytes} (front : text <+: written)
    (stack : Nat → UInt8) : readBuffer stack written text.length = text := by
  obtain ⟨rest, rfl⟩ := front
  have all := segment_store_self stack 0 (text ++ rest)
  rw [readBuffer, ← take_segment _ 0 (show text.length ≤ (text ++ rest).length by
    rw [List.length_append]; exact Nat.le_add_right _ _), all, List.take_left]

theorem data_of_front {call : QueueCall} {text : Bytes} (front : text <+: call.written)
    (isLength : call.n = text.length) (stack : Nat → UInt8) : call.data stack = text := by
  rw [QueueCall.data, isLength, readBuffer_of_front front]

theorem encodedCall_data (fd size : Nat) (value : RespValue Bytes) (stack : Nat → UInt8) :
    (encodedCall fd size value).data stack = encode value :=
  data_of_front (List.prefix_append (encode value) [0]) rfl stack

theorem ServerInv.queueWrite (inv : ServerInv server) (call : QueueCall) :
    ServerInv (queueWrite server call) := by
  have queued : ∀ conn ∈ server.conns, Queued conn (call.data server.stack)
      (writeBufAppend conn (call.data server.stack)).isSome
      (connQueueWrite conn (call.data server.stack)).2 :=
    fun conn member => connQueueWrite_queued (inv.counted conn member) _
  have changed := inv.changeConn call.fd _
    (fun conn member isTarget => (queued conn member).same.fd.trans isTarget)
    fun conn member _ => (queued conn member).counted
  exact ⟨changed.kv, changed.registries, changed.fds, changed.counted⟩

theorem Emits.refl (inv : ServerInv server) : Emits server server.ring server [] :=
  ⟨inv, rfl, rfl, (List.append_nil _).symm⟩

theorem Emits.queue (emits : Emits server ring after calls) (call : QueueCall) :
    Emits server ring (queueWrite after call) (calls ++ [call]) where
  inv := emits.inv.queueWrite call
  stack := emits.stack
  ring := emits.ring
  calls := by
    change after.calls ++ [call] = _
    rw [emits.calls, List.append_assoc]

end Calls

/-! ### Replies -/

section Replies

variable (server : ZedisServer) (fd : Nat)

/-- A fixed text: no NUL, no carriage return, and short. -/
def Line (msg : Bytes) : Prop := (∀ b ∈ msg, b ≠ 0 ∧ b ≠ 13) ∧ msg.length + 3 < 512

instance (msg : Bytes) : Decidable (Line msg) :=
  @instDecidableAnd _ _ (List.decidableBAll _ msg) (Nat.decLt _ _)

/-- A literal, by its characters. -/
theorem line_ofList {chars : List Char} (plain : Line (chars.map fun c => c.toNat.toUInt8)) :
    Line (ascii (String.ofList chars)) := by
  rw [ascii, String.toList_ofList]
  exact plain

theorem Line.cstr_eq {msg : Bytes} (line : Line msg) : cstr msg = msg :=
  cstr_eq_self fun member => (line.1 0 member).1 rfl

theorem Line.plain {msg : Bytes} (line : Line msg) : ¬ crlf <:+: msg :=
  fun inside => (line.1 13 (inside.subset (by decide))).2 rfl

theorem length_bulk_lt_iff (data : Bytes) :
    (encode (.bulk data)).length < 4096 ↔ data.length ≤ 4086 := by
  rw [length_encode_bulk]
  have number := decimal_spec data.length
  constructor
  · intro fits
    by_contra long
    have digits : 4 ≤ (decimal data.length).length := by
      by_contra few
      have bound := Nat.lt_of_lt_of_le number.lt_pow
        (Nat.pow_le_pow_right (n := 10) (by decide) (Nat.lt_succ_iff.mp (Nat.not_le.mp few)))
      omega
    omega
  · intro short
    have digits := number.short 3 (by omega)
    omega

variable {server fd}

theorem sendFormatted_fits {size : Nat} {value : RespValue Bytes} {reply : Formatted}
    (prints : Prints size value reply) (fits : (encode value).length < size) :
    sendFormatted server fd size reply = (0, queueWrite server (encodedCall fd size value)) := by
  rw [prints.fits fits, sendFormatted]
  simp only [gt_iff_lt, length_encode_pos value, if_true]
  rfl

theorem sendFormatted_refused {size : Nat} {value : RespValue Bytes} {reply : Formatted}
    (prints : Prints size value reply) (full : size ≤ (encode value).length) :
    sendFormatted server fd size reply = (0, server) := by
  rw [sendFormatted, prints.refuses full]

theorem replyError_eq {msg : Bytes} (line : Line msg) :
    replyError server fd msg = (0, queueWrite server (encodedCall fd 512 (.error msg))) := by
  have prints := respFormatError_prints 512 msg
  rw [line.cstr_eq] at prints
  exact sendFormatted_fits prints (by rw [encode, length_encode_line]; exact line.2)

theorem replySimple_eq {msg : Bytes} (line : Line msg) :
    replySimple server fd msg = (0, queueWrite server (encodedCall fd 512 (.simple msg))) := by
  have prints := respFormatSimple_prints 512 msg
  rw [line.cstr_eq] at prints
  exact sendFormatted_fits prints (by rw [encode, length_encode_line]; exact line.2)

theorem replyInteger_eq (v : Int) : replyInteger server fd v =
    (0, queueWrite server (encodedCall fd 64 (.integer (wrap64 v)))) := by
  have short := length_encode_integer (wrap64_range v).1 (wrap64_range v).2
  exact sendFormatted_fits (respFormatInteger_prints 64 _) (by omega)

theorem replyNull_eq :
    replyNull server fd = (0, queueWrite server (encodedCall fd 64 .null)) :=
  sendFormatted_fits (respFormatNull_prints 64) (by decide)

/-- **A bulk string of up to 4086 bytes is sent**, a longer one is dropped. -/
theorem replyBulk_eq (s : Bytes) : replyBulk server fd s =
    (0, if s.length ≤ 4086 then queueWrite server (encodedCall fd 4096 (.bulk s)) else server) := by
  by_cases short : s.length ≤ 4086
  · rw [if_pos short]
    exact sendFormatted_fits (respFormatBulk_prints 4096 s) ((length_bulk_lt_iff s).mpr short)
  · rw [if_neg short]
    exact sendFormatted_refused (respFormatBulk_prints 4096 s)
      (Nat.not_lt.mp fun fits => short ((length_bulk_lt_iff s).mp fits))

theorem sendPrinted_fits {size : Nat} {text : Bytes} (positive : 0 < text.length)
    (fits : text.length < size) : sendPrinted server fd size text =
      (0, queueWrite server ⟨fd, size, text ++ [0], text.length, false⟩) := by
  rw [sendPrinted, if_pos positive, snprintf_of_fits fits]

end Replies

end Zedis.Server

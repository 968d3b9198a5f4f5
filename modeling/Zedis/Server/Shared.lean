/-
**The bytes that a write buffer shares.**

A block of the slab begins with its link word, and its caller gets what follows. The blocks of the write
buffers are `4096` bytes apart, so of the `4096` bytes of a write buffer only `4088` are its own
(`ownBytes`). The last eight are the link word of the next block; for the last block, which the first
connection gets, they are `state` and `psl` of the first entry of the key-value table
(`entries_follow_buffers`).

The model of the server keeps the write buffers apart. `sharedHandle` and `sharedStep` are the server with
the shared bytes, where `last` is the connection whose write buffer is the last block: an append on it
that ends beyond its own bytes (`spills`) changes the first entry. On another connection it changes a link
word, which no command reads. `sharedStep_eq`: while no append ends beyond the own bytes, the server is as
it is modelled.
-/

import Zedis.HashTable.ReadBack
import Zedis.Server.Conns

namespace Zedis.Server

open Zedis.Lib Zedis.Arena Zedis.HashTable Zedis.Resp Zedis.Connection Zedis.Slab

/-! ### The layout -/

/-- The bytes of a write buffer that are its own. -/
def ownBytes : Nat := zedisConnWriteSize - slabDataOffset

section Layout

theorem zedisArenaAlloc_eq {arena after : ZedisArena} {size start : Nat}
    (granted : zedisArenaAlloc arena size 64 = some (start, after)) :
    start = alignUp arena.offset 64 ∧ after.offset = (start + size) % sizeMod := by
  unfold zedisArenaAlloc at granted
  rw [if_neg (show ¬ (64 : Nat) = 0 by decide)] at granted
  obtain ⟨-, granted⟩ := Option.ite_none_left_eq_some.mp granted
  obtain ⟨-, same⟩ := Option.ite_none_left_eq_some.mp granted
  cases same
  exact ⟨rfl, rfl⟩

/-- **After the write buffers come the entries of the table**, and the first write buffer that is asked for
is the last one: it ends eight bytes after the first entry begins. -/
theorem entries_follow_buffers {arena arena' after : ZedisArena}
    {count64 count256 count512 count4096 capacity start : Nat} {slab : ZedisSlab}
    (made : zedisSlabInit arena count64 count256 count512 (count4096 + 1) = some (slab, arena'))
    (granted : zedisArenaCalloc arena' capacity htEntrySize 64 = some (start, after))
    (small : (slab.pools slab4096).storage + (count4096 + 1) * zedisConnWriteSize + 63 < sizeMod) :
    ∃ first, (zedisSlabAlloc slab zedisConnWriteSize).1 = some first ∧
      (slab.pools slab4096).storage + first + ownBytes = start := by
  obtain ⟨⟨_, _⟩, -, made⟩ := Option.bind_eq_some_iff.mp made
  obtain ⟨⟨_, _⟩, -, made⟩ := Option.bind_eq_some_iff.mp made
  obtain ⟨⟨_, _⟩, -, made⟩ := Option.bind_eq_some_iff.mp made
  obtain ⟨⟨pool, _⟩, last, same⟩ := Option.map_eq_some_iff.mp made
  cases same
  obtain ⟨⟨storage, _⟩, stored, same⟩ := Option.map_eq_some_iff.mp last
  cases same
  change storage + (count4096 + 1) * 4096 + 63 < sizeMod at small
  obtain ⟨isStorage, offset⟩ := zedisArenaAlloc_eq stored
  obtain ⟨isStart, -⟩ := zedisArenaAlloc_eq granted
  refine ⟨count4096 * slabClass 3 + slabDataOffset, rfl, ?_⟩
  change storage + (count4096 * 4096 + 8) + 4088 = start
  -- the storage begins at a multiple of 64, and so do the entries
  have aligned : storage % 64 = 0 := by
    rw [isStorage, alignUp_eq]
    exact Nat.mul_mod_left _ _
  have length : slabClass 3 * (count4096 + 1) % sizeMod = (count4096 + 1) * 4096 := by
    rw [Nat.mul_comm]
    exact Nat.mod_eq_of_lt (show (count4096 + 1) * 4096 < sizeMod by omega)
  rw [length, Nat.mod_eq_of_lt (by omega)] at offset
  rw [isStart, offset, alignUp_eq, Nat.mod_eq_of_lt (by omega)]
  omega

end Layout

/-! ### The server with the shared bytes -/

/-- The append of a message is made, and ends beyond the bytes that are the buffer's own. -/
def spills (conn : Conn) (data : Bytes) : Bool :=
  !conn.closed && decide (ownBytes < conn.writeLen + data.length) &&
    decide (conn.writeLen + data.length ≤ zedisConnWriteSize)

/-- The number of a state. -/
def stateCode : HtState → Nat
  | .empty => 0
  | .occupied => 1
  | .tombstone => 2

/-- The state that a number is to a lookup, which asks for `HT_EMPTY` and `HT_OCCUPIED` and passes
whatever else it finds. -/
def stateOf : Nat → HtState
  | 0 => .empty
  | 1 => .occupied
  | _ => .tombstone

/-- The first eight bytes of an entry. -/
def headerBytes (e : HtEntry) : Bytes := leBytes 4 (stateCode e.state) ++ leBytes 4 e.psl

/-- The entry whose first eight bytes are others. -/
def withHeader (bytes : Bytes) (e : HtEntry) : HtEntry :=
  { e with state := stateOf (leValue (bytes.take 4)), psl := leValue (bytes.drop 4) }

/-- The connection with the bytes of the first entry at the end of its write buffer. -/
def withShared (bytes : Bytes) (conn : Conn) : Conn :=
  { conn with writeBuf := store conn.writeBuf ownBytes bytes }

/-- The server whose first entry is seen in the write buffer of a connection. -/
def loadShared (server : ZedisServer) (fd : Nat) : ZedisServer :=
  { server with
    conns := changeConn server.conns fd (withShared (headerBytes (server.kv.entries 0))) }

/-- The server whose first entry is what the write buffer of a connection says. -/
def saveShared (server : ZedisServer) (fd : Nat) : ZedisServer :=
  match connOf server fd with
  | none => server
  | some conn =>
    let header := segment conn.writeBuf ownBytes slabDataOffset
    { server with
      kv := withEntries server.kv
        (Function.update server.kv.entries 0 (withHeader header (server.kv.entries 0))) }

/-- A call is an append to the last block that ends beyond its own bytes. -/
def spillsAt (last : Option Nat) (server : ZedisServer) (call : QueueCall) : Bool :=
  last == some call.fd && (connOf server call.fd).any fun conn => spills conn (call.data server.stack)

/-- A call of `conn_queue_write`. Only an append that ends beyond the own bytes touches the others: one
that ends before them leaves nothing there for the flush to move, and one that is refused copies
nothing. -/
def sharedWrite (last : Option Nat) (server : ZedisServer) (call : QueueCall) : ZedisServer :=
  if spillsAt last server call then saveShared (queueWrite (loadShared server call.fd) call) call.fd
  else queueWrite server call

/-- The server when a command makes its first call, which it does after everything else. -/
def beforeCalls (server : ZedisServer) (fd : Nat) (cmd : RespValue Bytes) (after : ZedisServer) :
    ZedisServer :=
  { after with conns := subscribing server fd cmd, calls := server.calls }

/-- `server_handle_command`, with the shared bytes. `QUIT` makes no call. -/
def sharedHandle (last : Option Nat) (server : ZedisServer) (fd : Nat) (cmd : RespValue Bytes) :
    Option (Int × ZedisServer) :=
  (serverHandleCommand server fd cmd).map fun (rc, after) =>
    if commandOf cmd = some .quit then (rc, after)
    else (rc, (callsSince server after).foldl (sharedWrite last) (beforeCalls server fd cmd after))

/-- The bytes that a connection has pending end beyond its own ones. -/
def pendingBeyond (last : Option Nat) (server : ZedisServer) (fd : Nat) : Bool :=
  last == some fd && (connOf server fd).any fun conn => decide (ownBytes < conn.writeLen)

/-- The state an event leaves, with the shared bytes. -/
def sharedStep (last : Option Nat) (server : ZedisServer) : ServerEvent → Option ZedisServer
  | .command fd cmd =>
    if connected server fd then (sharedHandle last server fd cmd).map Prod.snd else none
  | .writable fd =>
    if pendingBeyond last server fd then
      (serverStep (loadShared server fd) (.writable fd)).map fun after => saveShared after fd
    else serverStep server (.writable fd)
  | event => serverStep server event

/-! ### Calls -/

section Calls

variable {server after : ZedisServer} {fd : Nat} {cmd : RespValue Bytes} {rc : Int}

/-- What some calls leave of a server. -/
theorem foldl_queueWrite (calls : List QueueCall) : ∀ server : ZedisServer,
    calls.foldl queueWrite server = { server with
      conns := server.conns.map (afterCalls server.stack calls), calls := server.calls ++ calls } := by
  induction calls with
  | nil =>
    intro server
    rw [List.append_nil, show afterCalls server.stack [] = id from rfl, List.map_id]
    rfl
  | cons call calls ih =>
    intro server
    have first : (queueWrite server call).conns =
        server.conns.map fun conn => receive server.stack conn call := rfl
    rw [List.foldl_cons, ih, first, List.map_map]
    change ZedisServer.mk _ _ _ _ _ ((server.calls ++ [call]) ++ calls) _ = _
    rw [List.append_assoc]
    rfl

/-- **The calls, made again, leave what the command has left.** -/
theorem replay_calls (runs : serverHandleCommand server fd cmd = some (rc, after))
    (notQuit : commandOf cmd ≠ some .quit) :
    (callsSince server after).foldl queueWrite (beforeCalls server fd cmd after) = after := by
  rcases serverHandleCommand_conns runs with ⟨isQuit, -⟩ | ⟨-, -, calls, sent, -⟩
  · exact absurd isQuit notQuit
  · have made : callsSince server after = calls := by
      rw [callsSince, sent.calls, List.drop_left]
    rw [made, foldl_queueWrite]
    have conns := sent.conns
    have recorded := sent.calls
    rw [← sent.stack] at conns
    unfold beforeCalls
    rw [← conns, ← recorded]

end Calls

/-! ### Appends within the own bytes -/

/-- One of some calls is an append that ends beyond the own bytes of a connection. -/
def spillsIn (stack : Nat → UInt8) : List QueueCall → Conn → Bool
  | [], _ => false
  | call :: calls, conn =>
    conn.fd == call.fd && spills conn (call.data stack) || spillsIn stack calls (receive stack conn call)

/-- **An event keeps to the own bytes of the write buffers**: no append that is made ends beyond them, and
nothing is flushed that does. -/
def Owned (server : ZedisServer) : ServerEvent → Prop
  | .command fd cmd => ∀ rc after, serverHandleCommand server fd cmd = some (rc, after) →
      ∀ conn ∈ server.conns, spillsIn server.stack (callsSince server after) conn = false
  | .writable fd => ∀ conn, connOf server fd = some conn → conn.writeLen ≤ ownBytes
  | _ => True

instance (server : ZedisServer) (event : ServerEvent) : Decidable (Owned server event) :=
  match event with
  | .command fd cmd =>
    decidable_of_iff (∀ result ∈ serverHandleCommand server fd cmd, ∀ conn ∈ server.conns,
        spillsIn server.stack (callsSince server result.2) conn = false)
      ⟨fun owned rc after runs => owned (rc, after) runs, fun owned _ runs => owned _ _ runs⟩
  | .writable fd =>
    inferInstanceAs (Decidable (∀ conn ∈ connOf server fd, conn.writeLen ≤ ownBytes))
  | .accept _ _ _ _ | .destroy _ => .isTrue trivial

/-- A connection that has read something else. -/
def withReader (parser : RespParser) (channel : Bytes) (subscribed : Bool) (conn : Conn) : Conn :=
  { conn with parser := parser, subscribeChannel := channel, subscribed := subscribed }

section Reader

variable (parser : RespParser) (channel : Bytes) (subscribed : Bool)

theorem shiftUnsent_withReader (conn : Conn) :
    shiftUnsent (withReader parser channel subscribed conn) =
      withReader parser channel subscribed (shiftUnsent conn) := by
  unfold shiftUnsent
  change (if conn.writeSent > 0 then _ else _) = _
  split
  · rfl
  · rfl

theorem flushLoop_withReader (answers : List WriteAnswer) : ∀ conn : Conn,
    flushLoop answers (withReader parser channel subscribed conn) =
      ((flushLoop answers conn).1, withReader parser channel subscribed (flushLoop answers conn).2) := by
  induction answers with
  | nil =>
    intro conn
    rw [flushLoop, flushLoop, shiftUnsent_withReader]
    change (if conn.writeSent < conn.writeLen then _ else _) = _
    split
    · rfl
    · rfl
  | cons answer answers ih =>
    intro conn
    rw [flushLoop, flushLoop]
    change (if conn.writeSent < conn.writeLen then _ else _) = _
    split
    · cases answer with
      | takes n => exact ih (takeBytes { conn with socket := { conn.socket with answers := answers } } _)
      | again =>
        exact congrArg (Prod.mk 0) (shiftUnsent_withReader parser channel subscribed
          { conn with socket := { conn.socket with answers := answers } })
      | fails => rfl
    · rfl

theorem writeBufAppend_withReader (conn : Conn) (data : Bytes) :
    writeBufAppend (withReader parser channel subscribed conn) data =
      (writeBufAppend conn data).map (withReader parser channel subscribed) := by
  unfold writeBufAppend
  change (if conn.closed = true then none
    else if conn.writeLen + data.length > zedisConnWriteSize then none else _) = _
  split
  · rfl
  · split
    · rfl
    · rfl

/-- **What was read does not matter to a call.** -/
theorem connQueueWrite_withReader (conn : Conn) (data : Bytes) :
    (connQueueWrite (withReader parser channel subscribed conn) data).2 =
      withReader parser channel subscribed (connQueueWrite conn data).2 := by
  unfold connQueueWrite
  rw [writeBufAppend_withReader]
  by_cases closed : conn.closed = true
  · rw [if_pos closed, if_pos (show (withReader parser channel subscribed conn).closed = true from closed)]
  · rw [if_neg closed,
      if_neg (show ¬ (withReader parser channel subscribed conn).closed = true from closed)]
    cases writeBufAppend conn data with
    | none => rfl
    | some longer =>
      rw [Option.map_some]
      dsimp only [connFlush]
      rw [show (withReader parser channel subscribed longer).socket = longer.socket from rfl,
        flushLoop_withReader]
      dsimp only
      split
      · rfl
      · rfl

theorem spillsIn_withReader (stack : Nat → UInt8) (calls : List QueueCall) : ∀ conn : Conn,
    spillsIn stack calls (withReader parser channel subscribed conn) = spillsIn stack calls conn := by
  induction calls with
  | nil => exact fun _ => rfl
  | cons call calls ih =>
    intro conn
    have later : receive stack (withReader parser channel subscribed conn) call =
        withReader parser channel subscribed (receive stack conn call) := by
      unfold receive
      change (if conn.fd = call.fd then _ else _) = _
      split
      · exact connQueueWrite_withReader parser channel subscribed conn _
      · rfl
    rw [spillsIn, spillsIn, later, ih]
    rfl

end Reader

section Owned

variable {server after : ZedisServer} {fd : Nat} {cmd : RespValue Bytes} {last : Option Nat}

/-- Calls that keep to the own bytes are calls of the model. -/
theorem foldl_sharedWrite (last : Option Nat) (calls : List QueueCall) : ∀ server : ZedisServer,
    (∀ conn ∈ server.conns, spillsIn server.stack calls conn = false) →
    calls.foldl (sharedWrite last) server = calls.foldl queueWrite server := by
  induction calls with
  | nil => exact fun _ _ => rfl
  | cons call calls ih =>
    intro server contained
    have inside : spillsAt last server call = false := by
      rw [spillsAt, Bool.and_eq_false_iff, Option.any_eq_false]
      refine Or.inr fun conn found => ?_
      obtain ⟨member, isFd⟩ := connOf_spec found
      have none := contained conn member
      rw [spillsIn, Bool.or_eq_false_iff, isFd, beq_self_eq_true, Bool.true_and] at none
      exact none.1
    have first : sharedWrite last server call = queueWrite server call :=
      if_neg (by rw [inside]; exact Bool.false_ne_true)
    rw [List.foldl_cons, List.foldl_cons, first]
    refine ih _ fun conn member => ?_
    obtain ⟨old, listed, rfl⟩ := List.mem_map.mp member
    have none := contained old listed
    rw [spillsIn, Bool.or_eq_false_iff] at none
    exact none.2

/-- The connections when the command makes its first call have the write side that they had. -/
theorem spillsIn_subscribing {calls : List QueueCall}
    (contained : ∀ conn ∈ server.conns, spillsIn server.stack calls conn = false) (fd : Nat)
    (cmd : RespValue Bytes) : ∀ conn ∈ subscribing server fd cmd, spillsIn server.stack calls conn = false := by
  intro conn member
  unfold subscribing at member
  split at member
  · obtain ⟨old, listed, ⟨-, rfl⟩ | ⟨-, rfl⟩⟩ := mem_changeConn member
    · exact (spillsIn_withReader old.parser _ true server.stack calls old).trans (contained old listed)
    · exact contained conn listed
  · exact contained conn member

theorem sharedHandle_eq (owned : Owned server (.command fd cmd)) (last : Option Nat) :
    sharedHandle last server fd cmd = serverHandleCommand server fd cmd := by
  unfold sharedHandle
  cases runs : serverHandleCommand server fd cmd with
  | none => rfl
  | some result =>
    obtain ⟨rc, after⟩ := result
    rw [Option.map_some]
    dsimp only
    split
    · rfl
    · rename_i notQuit
      rcases serverHandleCommand_conns runs with ⟨isQuit, -⟩ | ⟨-, -, calls, sent, -⟩
      · exact absurd isQuit notQuit
      · have contained := spillsIn_subscribing (owned rc after runs) fd cmd
        rw [← sent.stack] at contained
        rw [foldl_sharedWrite last _ (beforeCalls server fd cmd after) contained,
          replay_calls runs notQuit]

/-- **While the write buffers keep to their own bytes, the server is as it is modelled.** -/
theorem sharedStep_eq {event : ServerEvent} (owned : Owned server event) (last : Option Nat) :
    sharedStep last server event = serverStep server event := by
  cases event with
  | accept fd parser writeBuf answers => rfl
  | command fd cmd =>
    rw [sharedStep, serverStep, sharedHandle_eq owned last]
  | writable fd =>
    refine if_neg fun beyond => ?_
    rw [pendingBeyond, Bool.and_eq_true, Option.any_eq_true] at beyond
    obtain ⟨-, conn, found, long⟩ := beyond
    exact absurd (owned conn found) (Nat.not_le.mpr (of_decide_eq_true long))
  | destroy fd => rfl

end Owned

end Zedis.Server

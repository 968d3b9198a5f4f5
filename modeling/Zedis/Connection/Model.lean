/-
**The write side of a connection (`src/conn.c`, `include/conn.h`).**

`write_buf[write_sent..write_len)` are the bytes of the replies that the socket has not taken yet.
`conn_queue_write` appends a message to them and flushes; where the socket takes no more, the flush
moves the rest to the front of the buffer and arms `EPOLLOUT`, and `conn_on_writable` flushes again. A
message that does not fit, and a failing socket, mark the connection as closed.

The socket is the outside world. What it will answer to the `write` calls to come is part of the
state, so a statement about every connection is one about every pattern of answers. Registering a
handler with the event loop succeeds.
-/

import Zedis.Lib.Memory
import Zedis.Resp.Model

namespace Zedis.Connection

open Zedis.Lib Zedis.Resp

/-- `ZEDIS_CONN_WRITE_SIZE`. -/
def zedisConnWriteSize : Nat := 4096

/-- An answer to `write`: `n + 1` bytes are taken, or all if they are fewer; or `EAGAIN`; or another
error. -/
inductive WriteAnswer
  | takes (n : Nat)
  | again
  | fails
deriving DecidableEq, Repr

/-- The socket: its answers to the next `write` calls, after which it says `EAGAIN`, and all the bytes
it has taken. -/
structure Socket where
  answers : List WriteAnswer
  accepted : Bytes
deriving DecidableEq, Repr

/-- `conn_t`. `subscribeChannel` is what was copied to `subscribe_channel`, without the NUL after it;
`armed` says that the handler registered for `fd` is `conn_on_writable`, with `EPOLLOUT`. -/
structure Conn where
  fd : Nat
  parser : RespParser
  writeBuf : Nat → UInt8
  writeLen : Nat
  writeSent : Nat
  subscribeChannel : Bytes
  subscribed : Bool
  closed : Bool
  armed : Bool
  socket : Socket

/-- `conn_create`, for the parser, the write buffer and the socket it is given. -/
def connCreate (fd : Nat) (parser : RespParser) (writeBuf : Nat → UInt8)
    (answers : List WriteAnswer) : Conn :=
  ⟨fd, parser, writeBuf, 0, 0, [], false, false, false, ⟨answers, []⟩⟩

/-- `write_buf[write_sent..write_len)`. -/
def pending (conn : Conn) : Bytes :=
  segment conn.writeBuf conn.writeSent (conn.writeLen - conn.writeSent)

/-- `write_buf_append`: `none` is the return value `-1`. -/
def writeBufAppend (conn : Conn) (data : Bytes) : Option Conn :=
  if conn.closed then none
  else if conn.writeLen + data.length > zedisConnWriteSize then none
  else some { conn with
    writeBuf := store conn.writeBuf conn.writeLen data
    writeLen := conn.writeLen + data.length }

/-- A successful `write` of the pending bytes. -/
def takeBytes (conn : Conn) (n : Nat) : Conn :=
  { conn with
    writeSent := conn.writeSent + n
    socket := { conn.socket with accepted := conn.socket.accepted ++ (pending conn).take n } }

/-- The branch of `conn_flush` for `EAGAIN`. -/
def shiftUnsent (conn : Conn) : Conn :=
  if conn.writeSent > 0 then
    { conn with
      armed := true
      writeBuf := store conn.writeBuf 0 (pending conn)
      writeLen := conn.writeLen - conn.writeSent
      writeSent := 0 }
  else { conn with armed := true }

/-- The end of `conn_flush`, after its loop. -/
def allSent (conn : Conn) : Conn := { conn with writeLen := 0, writeSent := 0, armed := false }

/-- The loop of `conn_flush` and what follows it, for the answers still to come. -/
def flushLoop : List WriteAnswer → Conn → Int × Conn
  | [], conn => if conn.writeSent < conn.writeLen then (0, shiftUnsent conn) else (0, allSent conn)
  | answer :: answers, conn =>
    if conn.writeSent < conn.writeLen then
      let conn := { conn with socket := { conn.socket with answers := answers } }
      match answer with
      | .takes n => flushLoop answers (takeBytes conn (min (n + 1) (conn.writeLen - conn.writeSent)))
      | .again => (0, shiftUnsent conn)
      | .fails => (-1, { conn with closed := true })
    else (0, allSent conn)

/-- `conn_flush`: the return value and the connection. -/
def connFlush (conn : Conn) : Int × Conn := flushLoop conn.socket.answers conn

/-- `conn_queue_write`: the return value and the connection. -/
def connQueueWrite (conn : Conn) (data : Bytes) : Int × Conn :=
  if conn.closed then (-1, conn)
  else
    match writeBufAppend conn data with
    | none => (-1, { conn with closed := true })
    | some conn =>
      let (rc, conn) := connFlush conn
      if rc ≠ 0 then (-1, { conn with closed := true }) else (0, conn)

/-- `conn_on_writable`: whether the connection is destroyed, and the connection. -/
def connOnWritable (conn : Conn) : Bool × Conn :=
  let (rc, conn) := connFlush conn
  (rc ≠ 0, conn)

/-! ### Runs -/

/-- A call on the write side of a connection. -/
inductive ConnEvent
  | queue (data : Bytes)
  | writable
deriving DecidableEq, Repr

/-- A connection with its history: the messages given to `conn_queue_write`, oldest first, each with
whether its append succeeded, and whether the connection has been destroyed. -/
structure Outlet where
  conn : Conn
  messages : List (Bytes × Bool)
  destroyed : Bool

/-- The state a call leaves; there are no calls after `conn_destroy`. -/
def connStep (s : Outlet) : ConnEvent → Option Outlet
  | .queue data =>
    if s.destroyed then none
    else some { s with
      conn := (connQueueWrite s.conn data).2
      messages := s.messages ++ [(data, (writeBufAppend s.conn data).isSome)] }
  | .writable =>
    if s.destroyed then none
    else some { s with conn := (connOnWritable s.conn).2, destroyed := (connOnWritable s.conn).1 }

end Zedis.Connection

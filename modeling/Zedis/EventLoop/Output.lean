/-
**No output is stranded.**

A flush that returns `0` leaves the connection with nothing pending and `conn_on_readable` registered,
or with its pending bytes at the front of the buffer and `conn_on_writable` registered (`Settled`); one
that does not return `0` marks the connection as closed, and so does a message that does not fit. Every
write to a connection ends in a flush, so this holds of every connection throughout (`Kept.step`, which
says once which operations reach a connection).
-/

import Zedis.EventLoop.Reach

namespace Zedis.EventLoop

open Zedis.Lib Zedis.Resp Zedis.Connection Zedis.Server

/-! ### What every operation on a connection keeps -/

/-- A property of connections that a new one has and that every operation keeps. -/
structure Kept (P : Conn → Prop) : Prop where
  created : ∀ fd parser writeBuf answers, P (connCreate fd parser writeBuf answers)
  parser : ∀ conn parser, P conn → P { conn with parser := parser }
  channel : ∀ conn name, P conn → P (withChannel name conn)
  queued : ∀ conn data, P conn → P (connQueueWrite conn data).2
  flushed : ∀ conn, P conn → P (connOnWritable conn).2

section Kept

variable {P : Conn → Prop} {s next : System} {server after : ZedisServer} {fd : Nat}

theorem forall_changeConn {conns : List Conn} {change : Conn → Conn}
    (keeps : ∀ conn ∈ conns, conn.fd = fd → P (change conn)) (all : ∀ conn ∈ conns, P conn) :
    ∀ conn ∈ changeConn conns fd change, P conn := by
  intro conn member
  obtain ⟨old, inside, ⟨isTarget, rfl⟩ | ⟨-, rfl⟩⟩ := mem_changeConn member
  · exact keeps old inside isTarget
  · exact all conn inside

theorem Kept.afterCalls (kept : Kept P) (stack : Nat → UInt8) (calls : List QueueCall) {conn : Conn}
    (start : P conn) : P (afterCalls stack calls conn) := by
  refine afterCalls_invariant stack P (fun conn call has => ?_) calls start
  unfold receive
  split
  · exact kept.queued conn _ has
  · exact has

theorem forall_connDestroy (all : ∀ conn ∈ server.conns, P conn) (fd : Nat) :
    ∀ conn ∈ (connDestroy server fd).conns, P conn :=
  fun conn member => all conn (List.mem_of_mem_filter member)

theorem Kept.command (kept : Kept P) {cmd : RespValue Bytes} {rc : Int}
    (runs : serverHandleCommand server fd cmd = some (rc, after))
    (all : ∀ conn ∈ server.conns, P conn) : ∀ conn ∈ after.conns, P conn := by
  rcases serverHandleCommand_conns runs with ⟨-, -, rfl⟩ | ⟨-, -, calls, sent, -⟩
  · exact forall_connDestroy all fd
  · have subscribed : ∀ conn ∈ subscribing server fd cmd, P conn := by
      unfold subscribing
      split
      · exact forall_changeConn (fun conn member _ => kept.channel conn _ (all conn member)) all
      · exact all
    intro conn member
    rw [sent.conns] at member
    obtain ⟨old, inside, rfl⟩ := List.mem_map.mp member
    exact kept.afterCalls server.stack calls (subscribed old inside)

theorem Kept.dispatch (kept : Kept P) {cmd : RespValue Bytes} {destroyed : Bool}
    (ends : dispatchCommand fd server cmd = some (after, destroyed))
    (all : ∀ conn ∈ server.conns, P conn) : ∀ conn ∈ after.conns, P conn := by
  obtain ⟨rc, handled, runs, rfl | rfl⟩ := dispatchCommand_eq_some ends
  · exact kept.command runs all
  · exact forall_connDestroy (kept.command runs all) fd

theorem Kept.round (kept : Kept P) {conn : Conn} {malloc : Nat → Bool}
    (round : Round s fd conn malloc next) (all : ∀ conn ∈ s.server.conns, P conn) :
    ∀ conn ∈ next.server.conns, P conn := by
  have parsed : ∀ parser nodes, ∀ conn ∈ (s.parsed fd parser nodes).server.conns, P conn :=
    fun parser nodes => forall_changeConn (fun conn member _ => kept.parser conn parser (all conn member))
      all
  cases round with
  | waits parser nodes => exact parsed parser nodes
  | protests parser nodes =>
    refine forall_connDestroy ?_ fd
    exact forall_changeConn (fun conn member _ => kept.queued conn _ (parsed parser nodes conn member))
      (parsed parser nodes)
  | destroys parser nodes _ _ _ _ _ _ ends => exact kept.dispatch ends (parsed parser nodes)
  | handles parser nodes _ _ _ _ _ _ _ ends => exact kept.dispatch ends (parsed parser nodes)

/-- **Every step keeps it for every connection.** -/
theorem Kept.step (kept : Kept P) {event : SystemEvent} (stepped : Stepped s event next)
    (all : ∀ conn ∈ s.server.conns, P conn) : ∀ conn ∈ next.server.conns, P conn := by
  have flushed : ∀ {fd : Nat} {conn : Conn}, connOf s.server fd = some conn →
      ∀ conn' ∈ changeConn s.server.conns fd fun _ => (connOnWritable conn).2, P conn' :=
    fun found => forall_changeConn
      (fun _ _ _ => kept.flushed _ (all _ (connOf_spec found).1)) all
  cases stepped with
  | turns => exact all
  | drops => exact all
  | opens arrival buf conn writeBuf =>
    intro conn member
    rcases List.mem_cons.mp member with rfl | old
    · exact kept.created _ _ _ _
    · exact all conn old
  | adds => exact all
  | gives fd => exact forall_connDestroy all fd
  | flushes fd conn _ found => exact flushed found
  | breaks fd conn _ found => exact forall_connDestroy (flushed found) fd
  | ends fd => exact forall_connDestroy all fd
  | reads fd bytes =>
    exact forall_changeConn (fun conn member _ => kept.parser conn _ (all conn member)) all
  | round fd conn malloc _ _ _ round => exact kept.round round all

end Kept

/-! ### Settled connections -/

/-- An open connection has sent nothing of what is in its buffer, and `conn_on_writable` is armed if
and only if there is something. -/
def Settled (conn : Conn) : Prop :=
  conn.closed = false → conn.writeSent = 0 ∧ (conn.armed = true ↔ 0 < conn.writeLen)

section Settled

/-- **A flush settles the connection or closes it.** -/
theorem flushLoop_settled : ∀ (answers : List WriteAnswer) (conn : Conn),
    Settled (flushLoop answers conn).2 ∧
      ((flushLoop answers conn).1 ≠ 0 → (flushLoop answers conn).2.closed = true) := by
  have blocked : ∀ conn : Conn, conn.writeSent < conn.writeLen → Settled (shiftUnsent conn) := by
    intro conn more _
    unfold shiftUnsent
    split
    · exact ⟨rfl, fun _ => Nat.sub_pos_of_lt more, fun _ => rfl⟩
    · rename_i unsent
      exact ⟨Nat.eq_zero_of_not_pos unsent, fun _ => Nat.lt_of_le_of_lt (Nat.zero_le _) more,
        fun _ => rfl⟩
  have finished : ∀ conn : Conn, Settled (allSent conn) :=
    fun conn _ => ⟨rfl, Bool.noConfusion, fun positive => absurd positive (Nat.lt_irrefl 0)⟩
  intro answers
  induction answers with
  | nil =>
    intro conn
    rw [flushLoop]
    split
    · rename_i more
      exact ⟨blocked conn more, fun failed => absurd rfl failed⟩
    · exact ⟨finished conn, fun failed => absurd rfl failed⟩
  | cons answer answers ih =>
    intro conn
    rw [flushLoop]
    split
    · rename_i more
      cases answer with
      | takes n => exact ih _
      | again =>
        exact ⟨blocked { conn with socket := { conn.socket with answers := answers } } more,
          fun failed => absurd rfl failed⟩
      | fails => exact ⟨Bool.noConfusion, fun _ => rfl⟩
    · exact ⟨finished conn, fun failed => absurd rfl failed⟩

theorem connQueueWrite_settled {conn : Conn} (settled : Settled conn) (data : Bytes) :
    Settled (connQueueWrite conn data).2 := by
  unfold connQueueWrite
  split
  · exact settled
  · cases writeBufAppend conn data with
    | none => exact nofun
    | some longer =>
      obtain ⟨flushed, -⟩ := flushLoop_settled longer.socket.answers longer
      dsimp only [connFlush]
      split
      · exact nofun
      · exact flushed

theorem settled_kept : Kept Settled where
  created := fun _ _ _ _ _ => ⟨rfl, nofun, fun positive => absurd positive (Nat.lt_irrefl 0)⟩
  parser := fun _ _ settled => settled
  channel := fun _ _ settled => settled
  queued := fun _ data settled => connQueueWrite_settled settled data
  flushed := fun conn _ => (flushLoop_settled conn.socket.answers conn).1

end Settled

/-! ### Between callbacks -/

section Runs

variable {s : System}

/-- The handler that belongs to a write buffer: `conn_on_writable` if and only if there are bytes in
it. -/
def handlerFor (writeLen : Nat) : Handler :=
  if 0 < writeLen then .connOnWritable else .connOnReadable

/-- **No output is stranded**: between two callbacks, every open connection has `write_sent = 0`, and
the handler registered for it is the one that belongs to its write buffer. -/
theorem no_stranded_output {config : ZedisConfig} {mapped : Option (Nat → UInt8)}
    {stack : Nat → UInt8} {start : System} {events : List SystemEvent}
    (made : systemCreate config mapped stack = some start)
    (run : Run systemStep Always start events s) (between : s.phase = .waiting) :
    ∀ conn ∈ s.server.conns, conn.closed = false →
      conn.writeSent = 0 ∧ s.handlerOf conn.fd = some (handlerFor conn.writeLen) := by
  have created := systemCreate_created made
  have settled := run.invariant
    (fun s => SystemInv s ∧ ∀ conn ∈ s.server.conns, Settled conn)
    (fun _ _ _ ⟨inv, all⟩ _ taken =>
      ⟨inv.step taken, settled_kept.step (systemStep_stepped inv taken) all⟩)
    ⟨created.inv, by rw [created.conns]; exact nofun⟩
  intro conn member isOpen
  obtain ⟨inv, all⟩ := settled
  obtain ⟨unsent, armed⟩ := all conn member isOpen
  have registered : s.registered conn.fd = true :=
    (inv.registered conn.fd).mpr ⟨List.mem_map_of_mem member, by rw [between]; exact nofun⟩
  refine ⟨unsent, ?_⟩
  rw [System.handlerOf, if_pos registered, connOf_of_mem inv.server member, Option.map_some,
    handlerFor]
  simp only [armed]

/-- A client whose socket takes nothing: the reply to its `PING` is pending. -/
theorem no_stranded_output_pending : ∃ start s conn,
    systemCreate sampleConfig (some fun _ => 0) (fun _ => 0) = some start ∧
      Run systemStep Always start (sampleOpens 5 [] ++ sampleSends 5 (ascii "PING\r\n") 2) s ∧
      connOf s.server 5 = some conn ∧ conn.writeLen = 7 ∧ conn.writeSent = 0 ∧
      s.handlerOf 5 = some .connOnWritable := by
  have shown : ((sampleSystem sampleConfig (sampleOpens 5 [] ++ sampleSends 5 (ascii "PING\r\n") 2)).map
      fun s => (s.phase, (connOf s.server 5).map fun conn => (conn.closed, conn.writeLen))) =
        some (.waiting, some (false, 7)) := by decide +kernel
  obtain ⟨s, returned, seen⟩ := Option.map_eq_some_iff.mp shown
  obtain ⟨start, made, run⟩ := sampleSystem_run returned
  obtain ⟨phase, found⟩ := Prod.mk.inj seen
  obtain ⟨conn, isConn, fields⟩ := Option.map_eq_some_iff.mp found
  obtain ⟨isOpen, length⟩ := Prod.mk.inj fields
  obtain ⟨member, isFd⟩ := connOf_spec isConn
  obtain ⟨unsent, handler⟩ := no_stranded_output made run phase conn member isOpen
  rw [isFd, length] at handler
  exact ⟨start, s, conn, made, run, isConn, length, unsent, handler⟩

end Runs

end Zedis.EventLoop

/-
**From the stores to the bytes of a client.**

The texts that a connection is sent, in the order in which they are sent, are its stream. `Delivered`:
what its socket has taken, followed by what is pending, is the front of its stream, and all of it as long
as the connection is not marked as closed. `streams_in_order`: this holds of every connection at every
point of every run that keeps to the own bytes of the write buffers, so no byte of a reply or of a push is
lost, doubled, reordered or sent to another client, whatever the sockets do. The bytes that the write
buffers share may be written at any time: nothing that is pending is there.
-/

import Zedis.EventLoop.Sessions

namespace Zedis.EventLoop

open Zedis.Lib Zedis.Resp Zedis.Connection Zedis.Server

/-- The history after an input. -/
def Sessions.afterInput (log : Sessions) (s : System) (input : LoopInput) (next : System)
    (record : Record) : Sessions :=
  match input with
  | .event _ event => log.after s event next record
  | .shared _ _ => log

/-- The loop with the shared bytes, and its history. -/
def tracedLoop (traced : System × Sessions) (input : LoopInput) : Option (System × Sessions) :=
  (recordedLoop traced.1 input).map fun (next, record) =>
    (next, traced.2.afterInput traced.1 input next record)

/-- The input keeps to the own bytes of the write buffers. -/
def TracedOwn (traced : System × Sessions) (input : LoopInput) : Prop := KeepsOwn traced.1 input

instance (traced : System × Sessions) (input : LoopInput) : Decidable (TracedOwn traced input) :=
  inferInstanceAs (Decidable (KeepsOwn traced.1 input))

/-- **A connection has what it was sent.** -/
structure Delivered (text : Bytes) (conn : Conn) : Prop where
  whole : conn.closed = false → sentText conn = text
  front : sentText conn <+: text

/-- Every connection has what it was sent. -/
def InOrder (s : System) (log : Sessions) : Prop :=
  ∀ conn ∈ s.server.conns, Delivered (log.sent conn.fd) conn

/-! ### One connection -/

section Conn

variable {text : Bytes} {conn after : Conn}

/-- The write side is as it was. -/
theorem Delivered.of_same (delivered : Delivered text conn) (same : sentText after = sentText conn)
    (closed : after.closed = false → conn.closed = false) : Delivered text after := by
  refine ⟨fun isOpen => ?_, ?_⟩
  · rw [same]
    exact delivered.whole (closed isOpen)
  · rw [same]
    exact delivered.front

theorem Delivered.flushed (delivered : Delivered text conn) (counted : Counted conn) :
    Delivered text (connOnWritable conn).2 := by
  have flushed := connFlush_flushed counted
  refine delivered.of_same flushed.text fun isOpen => ?_
  rcases flushed.closed with ⟨-, same⟩ | ⟨-, failed⟩
  · exact same.symm.trans isOpen
  · change (connFlush conn).2.closed = false at isOpen
    rw [failed] at isOpen
    cases isOpen

/-- What is written to the shared bytes is not pending. -/
theorem Delivered.shared (delivered : Delivered text conn) (counted : Counted conn) (inside : Inside conn)
    (bytes : Bytes) : Delivered text (withShared bytes conn) := by
  have before : conn.writeSent + (conn.writeLen - conn.writeSent) ≤ ownBytes := by
    rw [Nat.add_sub_cancel' counted.sent]
    exact Nat.le_sub_of_add_le inside
  refine delivered.of_same (congrArg (conn.socket.accepted ++ ·) ?_) id
  exact segment_store_disjoint conn.writeBuf ownBytes bytes (Or.inl before)

/-- A message is appended, or the connection is marked as closed. -/
theorem Delivered.queued (delivered : Delivered text conn) (counted : Counted conn) (data : Bytes) :
    Delivered (text ++ data) (connQueueWrite conn data).2 := by
  have queued := connQueueWrite_queued counted data
  cases appended : (writeBufAppend conn data).isSome with
  | true =>
    rw [appended] at queued
    have sent := queued.text
    rw [if_pos rfl, delivered.whole (queued.accepted rfl)] at sent
    exact ⟨fun _ => sent, by rw [sent]⟩
  | false =>
    rw [appended] at queued
    have sent := queued.text
    rw [if_neg Bool.false_ne_true, List.append_nil] at sent
    refine ⟨fun isOpen => ?_, ?_⟩
    · rw [queued.refused rfl] at isOpen
      cases isOpen
    · rw [sent]
      exact delivered.front.trans (List.prefix_append text data)

theorem addressed_cons (text : Nat × Bytes) (texts : List (Nat × Bytes)) (fd : Nat) :
    addressed (text :: texts) fd = (if text.1 = fd then text.2 else []) ++ addressed texts fd :=
  List.flatMap_cons

/-- **After some calls**, the connection has what they sent to it. -/
theorem Delivered.afterCalls (stack : Nat → UInt8) (calls : List QueueCall) :
    ∀ {text : Bytes} {conn : Conn}, Delivered text conn → Counted conn →
      Delivered (text ++ addressed (calls.map fun call => (call.fd, call.data stack)) conn.fd)
        (afterCalls stack calls conn) := by
  induction calls with
  | nil =>
    intro text conn delivered _
    rw [List.map_nil, addressed, List.flatMap_nil, List.append_nil]
    exact delivered
  | cons call calls ih =>
    intro text conn delivered counted
    obtain ⟨kept, same⟩ := receive_kept stack counted call
    have first : Delivered (text ++ if call.fd = conn.fd then call.data stack else [])
        (receive stack conn call) := by
      unfold receive
      by_cases own : conn.fd = call.fd
      · rw [if_pos own, if_pos own.symm]
        exact delivered.queued counted _
      · rw [if_neg own, if_neg fun same => own same.symm, List.append_nil]
        exact delivered
    have later := ih first kept
    rw [same.fd, List.append_assoc] at later
    rw [List.map_cons, addressed_cons]
    exact later

end Conn

/-! ### Steps -/

section Steps

variable {s next : System} {log : Sessions} {record : Record} {fd : Nat} {conn : Conn}

theorem addressed_nil (fd : Nat) : addressed [] fd = [] := rfl

theorem textsSince_of_calls {server after : ZedisServer} (same : after.calls = server.calls) :
    textsSince server after = [] := by
  rw [textsSince, callsSince, same, List.drop_length]
  rfl

/-- **A command that is dispatched** delivers what it sends. -/
theorem dispatchCommand_delivered {server after : ZedisServer} {cmd : RespValue Bytes} {destroyed : Bool}
    (inv : ServerInv server) (ends : dispatchCommand fd server cmd = some (after, destroyed))
    {sent : Nat → Bytes} (delivered : ∀ conn ∈ server.conns, Delivered (sent conn.fd) conn) :
    ∀ conn ∈ after.conns,
      Delivered (sent conn.fd ++ addressed (textsSince server after) conn.fd) conn := by
  obtain ⟨rc, handled, handles, isAfter⟩ := dispatchCommand_eq_some ends
  -- a connection that is destroyed leaves the others and the calls
  have others : (∀ conn ∈ handled.conns,
        Delivered (sent conn.fd ++ addressed (textsSince server handled) conn.fd) conn) →
      ∀ conn ∈ after.conns,
        Delivered (sent conn.fd ++ addressed (textsSince server after) conn.fd) conn := by
    intro all conn member
    rcases isAfter with rfl | rfl
    · exact all conn member
    · exact all conn (List.mem_filter.mp member).1
  apply others
  intro conn member
  rcases serverHandleCommand_conns handles with ⟨-, -, rfl⟩ | ⟨-, -, calls, sentTo, -⟩
  · rw [textsSince_of_calls (show (connDestroy server fd).calls = server.calls from rfl), addressed_nil,
      List.append_nil]
    exact delivered conn (List.mem_filter.mp member).1
  · have texts : textsSince server handled =
        calls.map fun call => (call.fd, call.data server.stack) := by
      rw [textsSince, callsSince, sentTo.calls, List.drop_left]
    rw [sentTo.conns] at member
    obtain ⟨before, listed, rfl⟩ := List.mem_map.mp member
    have counted := counted_subscribing inv listed
    have same := afterCalls_same server.stack counted calls
    rw [texts, same.fd]
    refine Delivered.afterCalls server.stack calls ?_ counted
    -- a `SUBSCRIBE` does not touch the write side
    unfold subscribing at listed
    split at listed
    · obtain ⟨old, inside, ⟨-, rfl⟩ | ⟨-, rfl⟩⟩ := mem_changeConn listed
      · exact (delivered old inside).of_same rfl id
      · exact delivered _ inside
    · exact delivered before listed

/-- Only the connection itself is sent the protocol error. -/
theorem addressed_protocolError {last : RespParser} {nodes : NodePool} {other : Nat}
    (differs : other ≠ fd) : addressed
      (textsSince s.server (protocolError fd (s.parsed fd last nodes).server)) other = [] := by
  have texts : textsSince s.server (protocolError fd (s.parsed fd last nodes).server) =
      [(fd, (protocolCall fd).data s.server.stack)] := by
    rw [protocolError_eq]
    exact textsSince_queueWrite rfl (protocolCall fd)
  rw [texts, addressed_cons, if_neg (Ne.symm differs), addressed_nil, List.append_nil]

/-- The connections after a call of `resp_parser_next` have the write side that they had. -/
theorem InOrder.parsed (inOrder : InOrder s log) (last : RespParser) (nodes : NodePool) :
    ∀ conn ∈ (s.parsed fd last nodes).server.conns, Delivered (log.sent conn.fd) conn := by
  intro conn member
  obtain ⟨old, inside, ⟨-, rfl⟩ | ⟨-, rfl⟩⟩ := mem_changeConn member
  · exact (inOrder old inside).of_same rfl id
  · exact inOrder _ inside

theorem Round.inOrder {malloc : Nat → Bool} (round : Round s fd conn malloc next) (inv : SystemInv s)
    (inOrder : InOrder s log) : InOrder next (log.after s (.parse malloc) next record) := by
  cases round with
  | waits last nodes =>
    intro other member
    have silent : textsSince s.server (s.parsed fd last nodes).server = [] := textsSince_of_calls rfl
    change Delivered (log.sent other.fd ++
      addressed (textsSince s.server (s.parsed fd last nodes).server) other.fd) other
    rw [silent, addressed_nil, List.append_nil]
    exact inOrder.parsed last nodes other member
  | protests last nodes =>
    intro other member
    have kept := inv.parsed_server fd last nodes
    have differs : other.fd ≠ fd := of_decide_eq_true (List.mem_filter.mp member).2
    change Delivered (log.sent other.fd ++ addressed
      (textsSince s.server (protocolError fd (s.parsed fd last nodes).server)) other.fd) other
    rw [addressed_protocolError differs, List.append_nil]
    exact inOrder.parsed last nodes other (mem_protocolError kept member)
  | destroys last nodes out cmd rest server runs decoded ends =>
    exact dispatchCommand_delivered (inv.parsed_server fd last nodes) ends (inOrder.parsed last nodes)
  | handles last nodes released out cmd rest server runs decoded ends =>
    exact dispatchCommand_delivered (inv.parsed_server fd last nodes) ends (inOrder.parsed last nodes)

/-- A new connection has been sent nothing. -/
theorem acceptStep_inOrder {arrival : Arrival} (inOrder : InOrder s log)
    (taken : acceptStep s (some arrival) = some next) :
    InOrder next (log.after s (.accept (some arrival)) next record) := by
  obtain ⟨fresh, outcome⟩ := acceptStep_cases taken
  have others : ∀ conn ∈ s.server.conns,
      Delivered (Function.update log.sent arrival.fd [] conn.fd) conn := by
    intro conn member
    rw [Function.update_of_ne (ne_of_mem_of_not_mem (List.mem_map_of_mem member) fresh)]
    exact inOrder conn member
  rcases outcome with ⟨-, rfl⟩ | ⟨buf, conn, writeBuf, -, -, -, -, rfl⟩
  · exact others
  · intro other member
    rcases List.mem_cons.mp member with rfl | old
    · change Delivered (Function.update log.sent arrival.fd [] arrival.fd) _
      rw [Function.update_self]
      exact ⟨fun _ => rfl, List.nil_prefix⟩
    · exact others other old

/-- Only a round of `server_dispatch_commands` sends something. -/
theorem Sessions.sent_other {event : SystemEvent} (notParse : ∀ malloc, event ≠ .parse malloc)
    (notAccept : ∀ arrival, event ≠ .accept (some arrival)) :
    (log.after s event next record).sent = log.sent := by
  cases event with
  | accept arrival =>
    cases arrival with
    | none => rfl
    | some arrival => exact absurd rfl (notAccept arrival)
  | read answer =>
    cases answer with
    | data bytes =>
      simp only [Sessions.after]
      split
      · rfl
      · rfl
    | _ => rfl
  | parse malloc => exact absurd rfl (notParse malloc)
  | _ => rfl

/-- **Every step keeps the streams in order.** -/
theorem InOrder.step {event : SystemEvent} (inOrder : InOrder s log) (inv : SystemInv s)
    (taken : systemStep s event = some next) : InOrder next (log.after s event next record) := by
  by_cases isParse : ∃ malloc, event = .parse malloc
  · obtain ⟨malloc, rfl⟩ := isParse
    cases systemStep_stepped inv taken with
    | turns _ _ notParse => exact absurd rfl (notParse malloc)
    | round fd conn _ _ phase found round => exact round.inOrder inv inOrder
  by_cases isAccept : ∃ arrival, event = .accept (some arrival)
  · obtain ⟨arrival, rfl⟩ := isAccept
    rw [systemStep] at taken
    split at taken
    · exact acceptStep_inOrder inOrder taken
    · cases taken
  -- nothing is sent, and only the flush of a connection touches a write side
  have same : (log.after s event next record).sent = log.sent :=
    Sessions.sent_other (fun malloc same => isParse ⟨malloc, same⟩)
      fun arrival same => isAccept ⟨arrival, same⟩
  have flushed : ∀ {fd : Nat} {conn : Conn}, connOf s.server fd = some conn →
      ∀ other ∈ (s.setConn fd fun _ => (connOnWritable conn).2).server.conns,
        Delivered (log.sent other.fd) other := by
    intro fd conn found other member
    obtain ⟨inside, isFd⟩ := connOf_spec found
    obtain ⟨old, listed, ⟨-, rfl⟩ | ⟨-, rfl⟩⟩ := mem_changeConn member
    · have counted := inv.server.counted conn inside
      have sameFd : (connOnWritable conn).2.fd = conn.fd := (connFlush_flushed counted).same.fd
      rw [sameFd]
      exact (inOrder conn inside).flushed counted
    · exact inOrder _ listed
  intro conn member
  rw [same]
  cases systemStep_stepped inv taken with
  | turns => exact inOrder conn member
  | drops arrival => exact absurd ⟨arrival, rfl⟩ isAccept
  | opens arrival => exact absurd ⟨arrival, rfl⟩ isAccept
  | adds => exact inOrder conn member
  | gives fd => exact inOrder conn (List.mem_filter.mp member).1
  | flushes fd old _ found => exact flushed found conn member
  | breaks fd old _ found => exact flushed found conn (List.mem_filter.mp member).1
  | ends fd => exact inOrder conn (List.mem_filter.mp member).1
  | reads fd bytes =>
    obtain ⟨old, inside, ⟨-, rfl⟩ | ⟨-, rfl⟩⟩ := mem_changeConn member
    · exact (inOrder old inside).of_same rfl id
    · exact inOrder _ inside
  | round _ _ malloc => exact absurd ⟨malloc, rfl⟩ isParse

/-- **Every input that keeps to the own bytes keeps the streams in order.** -/
theorem InOrder.loop {input : LoopInput} (inOrder : InOrder s log) (inv : LoopInv s)
    (own : KeepsOwn s input) (taken : recordedLoop s input = some (next, record)) :
    InOrder next (log.afterInput s input next record) := by
  rcases recordedLoop_cases inv own taken with
    ⟨last, event, rfl, stepped, -⟩ | ⟨fd, bytes, rfl, rfl, -⟩
  · exact inOrder.step inv.system stepped
  · intro conn member
    obtain ⟨old, listed, ⟨-, rfl⟩ | ⟨-, rfl⟩⟩ := mem_changeConn member
    · exact (inOrder old listed).shared (inv.system.server.counted old listed) (inv.inside old listed) bytes
    · exact inOrder conn listed

end Steps

/-- **Every client gets its own stream, in order.** At every point of every run of the system that keeps
to the own bytes of the write buffers, what the socket of an open connection has taken, followed by what is
pending, is the front of the texts that were sent to this connection since it was opened, and all of them
unless the connection is marked as closed. -/
theorem streams_in_order {config : ZedisConfig} {mapped : Option (Nat → UInt8)} {stack : Nat → UInt8}
    {start last : System} {log : Sessions} {inputs : List LoopInput}
    (made : systemCreate config mapped stack = some start)
    (run : Run tracedLoop TracedOwn (start, noSessions) inputs (last, log)) (conn : Conn)
    (member : conn ∈ last.server.conns) :
    conn.socket.accepted ++ pending conn <+: log.sent conn.fd ∧
      (conn.closed = false → conn.socket.accepted ++ pending conn = log.sent conn.fd) := by
  have created := systemCreate_created made
  obtain ⟨-, inOrder⟩ := run.invariant (fun traced => LoopInv traced.1 ∧ InOrder traced.1 traced.2)
    (fun traced input next both own taken => by
      obtain ⟨⟨after, record⟩, recorded, rfl⟩ := Option.map_eq_some_iff.mp taken
      exact ⟨both.1.step own recorded, both.2.loop both.1 own recorded⟩)
    ⟨systemCreate_loopInv made, fun conn listed => by rw [created.conns] at listed; cases listed⟩
  have delivered := inOrder conn member
  exact ⟨delivered.front, delivered.whole⟩

/-- The `PING` in two pieces, with the shared bytes written before the reply is taken. -/
def sampleWritten : List LoopInput := samplePing.map (.event (some 5)) ++ [.shared 5 (List.replicate 8 255)]

/-- The reply to the `PING` waits for the socket. -/
theorem streams_in_order_ping : ∃ start last log conn,
    systemCreate sampleConfig (some fun _ => 0) (fun _ => 0) = some start ∧
      Run tracedLoop TracedOwn (start, noSessions) sampleWritten (last, log) ∧
      conn ∈ last.server.conns ∧ log.sent 5 = ascii "+PONG\r\n" ∧
      conn.socket.accepted ++ pending conn = log.sent conn.fd := by
  have shown : ((systemCreate sampleConfig (some fun _ => 0) fun _ => 0).bind fun start =>
      (replay (fun traced input => if TracedOwn traced input then tracedLoop traced input else none)
        (start, noSessions) sampleWritten).map fun traced =>
          ((connOf traced.1.server 5).map Conn.closed, traced.2.sent 5)) =
      some (some false, ascii "+PONG\r\n") := by decide +kernel
  obtain ⟨start, made, returned⟩ := Option.bind_eq_some_iff.mp shown
  obtain ⟨⟨last, log⟩, replayed, seen⟩ := Option.map_eq_some_iff.mp returned
  obtain ⟨isOpen, sent⟩ := Prod.mk.inj seen
  obtain ⟨conn, found, notClosed⟩ := Option.map_eq_some_iff.mp isOpen
  obtain ⟨member, isFd⟩ := connOf_spec found
  have run := Run.of_guarded replayed
  exact ⟨start, last, log, conn, made, run, member, sent,
    (streams_in_order made run conn member).2 notClosed⟩

end Zedis.EventLoop

/-
**Closed connections and their commands.**

A connection is marked as closed by a message that does not fit or by a failing socket, and is destroyed
later, on a path of its own. `server_dispatch_commands` looks at the flag only after a command: what the
connection's own reply has set is seen there. What a broadcast from another connection has set is not
seen before the connection's next command has been handled. So no closed connection is ever left in the
list exactly as long as every broadcast fits into the write buffers of the other receivers, whose
sockets do not fail (`closed_connection_inert`), and then no command of one is handled.
-/

import Zedis.EventLoop.Output

namespace Zedis.EventLoop

open Zedis.Lib Zedis.Resp Zedis.Connection Zedis.RingBuffer Zedis.Server

/-- The key-value store, the sorted sets, the lists, the log, the order book and the ring are the
same. -/
structure SameStores (server next : ZedisServer) : Prop where
  kv : next.kv = server.kv
  registries : next.toRegistries = server.toRegistries
  book : next.book = server.book
  ring : next.ring = server.ring

/-- **A closed connection is inert**: no round of `server_dispatch_commands` on it changes a store. -/
def ClosedInert (s : System) : Prop :=
  ∀ fd conn malloc next, s.phase = .dispatching fd → connOf s.server fd = some conn →
    conn.closed = true → systemStep s (.parse malloc) = some next → SameStores s.server next.server

/-- No connection in the list is marked as closed. -/
def NoneClosed (server : ZedisServer) : Prop := ∀ conn ∈ server.conns, conn.closed = false

/-- The message fits, and the socket does not fail when it is flushed. -/
def Accepts (conn : Conn) (message : Bytes) : Prop :=
  conn.writeLen + message.length ≤ zedisConnWriteSize ∧
    flushFails conn.socket.answers (conn.writeLen + message.length - conn.writeSent) = false

/-- If the command is a `PUBLISH` that the ring takes, the other receivers accept its message. -/
def OthersAccept (server : ZedisServer) (fd : Nat) (cmd : RespValue Bytes) : Prop :=
  ∀ channel message ring, publishArgs cmd = some (channel, message) →
    zedisRingPublish server.ring (channelName channel) message = some ring →
    ∀ conn ∈ server.conns, conn.fd ≠ fd → receives (channelName channel) conn = true →
      Accepts conn (encode (published (cstr (channelName channel)) message))

/-- The next command of a connection is complete, and its parser gets the nodes for it. -/
def NextCommand (s : System) (fd : Nat) (malloc : Nat → Bool) (cmd : RespValue Bytes) : Prop :=
  ∃ conn rest out parser nodes, s.phase = .dispatching fd ∧ connOf s.server fd = some conn ∧
    decode (unread conn.parser) = some (.ok (cmd, rest)) ∧
    nextNodes (grants s.slab (s.memory fd).nodes.asked malloc) conn.parser (s.memory fd).nodes =
      some (.ok out, parser, nodes)

/-- The condition on an event: a broadcast is accepted by all other receivers. -/
def BroadcastAccepted (s : System) : SystemEvent → Prop
  | .parse malloc => ∀ fd cmd, NextCommand s fd malloc cmd → OthersAccept s.server fd cmd
  | _ => True

/-! ### A command -/

section Command

variable {server after : ZedisServer} {fd : Nat} {cmd : RespValue Bytes}

/-- A broadcast and its reply, for a connection that the reply is not for: its push. -/
theorem afterCalls_broadcast (inv : ServerInv server) (stack : Nat → UInt8)
    (channel payload : Bytes) (reply : QueueCall) {conn : Conn} (member : conn ∈ server.conns)
    (other : conn.fd ≠ reply.fd) :
    afterCalls stack ((server.conns.filter (receives channel)).map (pushCall (cstr channel) payload) ++
        [reply]) conn =
      if receives channel conn then
        (connQueueWrite conn (encode (published (cstr channel) payload))).2
      else conn := by
  have counted := inv.counted conn member
  have nodup : ((server.conns.filter (receives channel)).map Conn.fd).Nodup :=
    inv.fds.sublist (List.filter_sublist.map _)
  have same := afterCalls_same stack counted
    ((server.conns.filter (receives channel)).map (pushCall (cstr channel) payload))
  have isReceiver : conn.fd ∈ (server.conns.filter (receives channel)).map Conn.fd ↔
      receives channel conn = true := by
    constructor
    · intro inside
      obtain ⟨receiver, listed, sameFd⟩ := List.mem_map.mp inside
      obtain ⟨isConn, receives⟩ := List.mem_filter.mp listed
      rw [← List.inj_on_of_nodup_map inv.fds isConn member sameFd]
      exact receives
    · exact fun receives => List.mem_map_of_mem (List.mem_filter.mpr ⟨member, receives⟩)
  rw [afterCalls, List.foldl_append]
  change afterCalls stack [reply] (afterCalls stack _ conn) = _
  rw [afterCalls_of_others stack fun call listed => by
      rw [List.mem_singleton.mp listed, same.fd]
      exact other,
    afterCalls_pushes stack counted (cstr channel) payload nodup]
  simp only [isReceiver]

/-- Such a connection stays open exactly if it accepts its push. -/
theorem afterCalls_broadcast_open_iff (inv : ServerInv server) (none : NoneClosed server)
    (stack : Nat → UInt8) (channel payload : Bytes) (reply : QueueCall) {conn : Conn}
    (member : conn ∈ server.conns) (other : conn.fd ≠ reply.fd) :
    (afterCalls stack ((server.conns.filter (receives channel)).map (pushCall (cstr channel) payload) ++
        [reply]) conn).closed = false ↔
      (receives channel conn = true → Accepts conn (encode (published (cstr channel) payload))) := by
  rw [afterCalls_broadcast inv stack channel payload reply member other]
  split
  · rename_i receives
    rw [connQueueWrite_open_exactly (none conn member)]
    exact ⟨fun accepts _ => accepts, fun accepts => accepts receives⟩
  · rename_i ignores
    exact iff_of_true (none conn member) fun receives => absurd receives ignores

/-- Calls for the connection itself leave the others as they are. -/
theorem others_open_of_own (inv : ServerInv server) (none : NoneClosed server) {calls : List QueueCall}
    (sent : Sent server (subscribing server fd cmd) after calls) (own : ∀ call ∈ calls, call.fd = fd) :
    ∀ conn ∈ after.conns, conn.fd ≠ fd → conn.closed = false := by
  intro conn member other
  rw [sent.conns] at member
  obtain ⟨old, inside, rfl⟩ := List.mem_map.mp member
  rw [(afterCalls_same server.stack (counted_subscribing inv inside) calls).fd] at other
  rw [afterCalls_of_others server.stack fun call listed => by rw [own call listed]; exact other]
  unfold subscribing at inside
  split at inside
  · exact forall_changeConn (fun conn listed _ => none conn listed) none old inside
  · exact none old inside

/-- **Which commands leave the other connections open.** -/
theorem others_open_iff (inv : ServerInv server) (none : NoneClosed server) {rc : Int}
    (runs : serverHandleCommand server fd cmd = some (rc, after)) :
    (∀ conn ∈ after.conns, conn.fd ≠ fd → conn.closed = false) ↔ OthersAccept server fd cmd := by
  rcases serverHandleCommand_conns runs with ⟨isQuit, -, rfl⟩ | ⟨-, -, calls, sent, own⟩
  · refine iff_of_true (fun conn member _ => forall_connDestroy none fd conn member) ?_
    intro channel message ring args
    have isPublish := (publishArgs_eq_some args).1
    rw [isQuit] at isPublish
    cases isPublish
  by_cases taken : PublishTaken server cmd
  · obtain ⟨channel, message, ring, args, taken⟩ := taken
    -- the calls are the pushes and the reply
    obtain ⟨after', runs', broadcast⟩ := publish_taken inv fd args taken
    cases runs.symm.trans runs'
    rw [callsSince, sent.calls, List.drop_left] at broadcast
    have conns := sent.conns
    rw [subscribing_of_other (by rw [(publishArgs_eq_some args).1]; decide), broadcast] at conns
    have each : ∀ conn ∈ server.conns, conn.fd ≠ fd →
        ((afterCalls server.stack calls conn).closed = false ↔
          (receives (channelName channel) conn = true →
            Accepts conn (encode (published (cstr (channelName channel)) message)))) := by
      intro conn member other
      rw [broadcast]
      exact afterCalls_broadcast_open_iff inv none server.stack (channelName channel) message
        (encodedCall fd 64 _) member other
    rw [← broadcast] at conns
    constructor
    · intro isOpen channel' message' ring' args' taken' conn member other
      cases args.symm.trans args'
      refine (each conn member other).mp (isOpen _ ?_ ?_)
      · rw [conns]
        exact List.mem_map_of_mem member
      · rw [(afterCalls_same server.stack (inv.counted conn member) calls).fd]
        exact other
    · intro accepts conn member other
      rw [conns] at member
      obtain ⟨old, inside, rfl⟩ := List.mem_map.mp member
      rw [(afterCalls_same server.stack (inv.counted old inside) calls).fd] at other
      exact (each old inside other).mpr (accepts channel message ring args taken old inside other)
  · -- every call is for the connection itself
    exact iff_of_true (others_open_of_own inv none sent (own.resolve_right taken))
      fun channel message ring args isTaken => absurd ⟨channel, message, ring, args, isTaken⟩ taken

/-- **Which commands leave every connection of the list open.** -/
theorem noneClosed_dispatch_iff (inv : ServerInv server) (none : NoneClosed server) {destroyed : Bool}
    (ends : dispatchCommand fd server cmd = some (after, destroyed)) :
    NoneClosed after ↔ OthersAccept server fd cmd := by
  obtain ⟨rc, handled, _, _, runs, emits, -⟩ := serverHandleCommand_handled inv fd cmd
  rw [← others_open_iff inv none runs]
  rw [dispatchCommand, runs, Option.map_some] at ends
  have destroyedThen : ∀ server' : ZedisServer, NoneClosed (connDestroy server' fd) ↔
      ∀ conn ∈ server'.conns, conn.fd ≠ fd → conn.closed = false := by
    intro server'
    refine forall_congr' fun conn => ?_
    change conn ∈ server'.conns.filter _ → _ ↔ _
    rw [List.mem_filter, decide_eq_true_eq]
    exact and_imp
  have notOwn : (∀ conn ∈ handled.conns, conn.fd = fd → conn.closed = false) →
      (NoneClosed handled ↔ ∀ conn ∈ handled.conns, conn.fd ≠ fd → conn.closed = false) := by
    intro own
    refine ⟨fun all conn member _ => all conn member, fun others conn member => ?_⟩
    by_cases isOwn : conn.fd = fd
    · exact own conn member isOwn
    · exact others conn member isOwn
  dsimp only at ends
  split at ends
  · rename_i quits
    cases ends
    refine notOwn fun conn member _ => ?_
    rcases serverHandleCommand_conns runs with ⟨-, -, rfl⟩ | ⟨-, zero, -⟩
    · exact forall_connDestroy none fd conn member
    · exact absurd zero quits
  · split at ends
    · cases ends
      exact destroyedThen handled
    · rename_i stays
      cases ends
      refine notOwn fun conn member isOwn => ?_
      rw [← isOwn, connOf_of_mem emits.inv member] at stays
      exact Bool.eq_false_iff.mpr stays

end Command

/-! ### A round, and a step -/

section Step

variable {s next : System} {fd : Nat} {conn : Conn} {malloc : Nat → Bool}

theorem othersAccept_parsed (s : System) (fd : Nat) (parser : RespParser) (nodes : NodePool)
    (cmd : RespValue Bytes) :
    OthersAccept (s.parsed fd parser nodes).server fd cmd ↔ OthersAccept s.server fd cmd := by
  have same : ∀ other : Conn, other.fd ≠ fd →
      (other ∈ (s.parsed fd parser nodes).server.conns ↔ other ∈ s.server.conns) := by
    intro other differs
    constructor
    · intro member
      obtain ⟨old, inside, ⟨isFd, rfl⟩ | ⟨-, rfl⟩⟩ := mem_changeConn member
      · exact absurd isFd differs
      · exact inside
    · exact fun member => List.mem_map.mpr ⟨other, member, if_neg differs⟩
  unfold OthersAccept
  change (∀ channel message ring, _ → zedisRingPublish s.server.ring _ _ = _ → _) ↔ _
  refine forall_congr' fun channel => forall_congr' fun message => forall_congr' fun ring =>
    imp_congr_right fun _ => imp_congr_right fun _ => forall_congr' fun other => ?_
  constructor
  · exact fun accepts member differs => accepts ((same other differs).mpr member) differs
  · exact fun accepts member differs => accepts ((same other differs).mp member) differs

/-- **Which rounds leave every connection of the list open.** -/
theorem Round.noneClosed_iff (round : Round s fd conn malloc next) (inv : SystemInv s)
    (none : NoneClosed s.server) (phase : s.phase = .dispatching fd)
    (found : connOf s.server fd = some conn) :
    NoneClosed next.server ↔ BroadcastAccepted s (.parse malloc) := by
  have parsed : ∀ parser nodes, NoneClosed (s.parsed fd parser nodes).server :=
    fun parser nodes => forall_changeConn (fun other member _ => none other member) none
  have unsaid : ∀ {said : Verdict RespValueT} {parser : RespParser} {nodes : NodePool},
      nextNodes (grants s.slab (s.memory fd).nodes.asked malloc) conn.parser (s.memory fd).nodes =
        some (said, parser, nodes) → (∀ out, said ≠ .ok out) → BroadcastAccepted s (.parse malloc) := by
    rintro said parser nodes runs notOk fd' cmd ⟨conn', rest, out, parser', nodes', phase', found', -, ok⟩
    cases phase.symm.trans phase'
    cases found.symm.trans found'
    cases runs.symm.trans ok
    exact absurd rfl (notOk out)
  have said : ∀ {out : RespValueT} {parser : RespParser} {nodes : NodePool} {cmd : RespValue Bytes}
      {rest : Bytes},
      nextNodes (grants s.slab (s.memory fd).nodes.asked malloc) conn.parser (s.memory fd).nodes =
        some (.ok out, parser, nodes) → decode (unread conn.parser) = some (.ok (cmd, rest)) →
      (OthersAccept (s.parsed fd parser nodes).server fd cmd ↔ BroadcastAccepted s (.parse malloc)) := by
    intro out parser nodes cmd rest runs decoded
    rw [othersAccept_parsed]
    constructor
    · rintro accepts fd' cmd' ⟨conn', rest', -, -, -, phase', found', decoded', -⟩
      cases phase.symm.trans phase'
      cases found.symm.trans found'
      cases decoded.symm.trans decoded'
      exact accepts
    · exact fun accepted => accepted fd cmd ⟨conn, rest, out, parser, nodes, phase, found, decoded, runs⟩
  have serverInv := inv.parsed_server fd
  cases round with
  | waits parser nodes runs => exact iff_of_true (parsed parser nodes) (unsaid runs nofun)
  | protests parser nodes runs =>
    -- the reply is for the connection that is destroyed
    exact iff_of_true (fun other member => parsed parser nodes other
      (mem_protocolError (serverInv parser nodes) member)) (unsaid runs nofun)
  | destroys parser nodes out cmd rest server runs decoded ends =>
    rw [← said runs decoded]
    exact noneClosed_dispatch_iff (serverInv parser nodes) (parsed parser nodes) ends
  | handles parser nodes released out cmd rest server runs decoded ends =>
    rw [← said runs decoded]
    exact noneClosed_dispatch_iff (serverInv parser nodes) (parsed parser nodes) ends

/-- **Which steps leave every connection of the list open.** -/
theorem Stepped.noneClosed_iff {event : SystemEvent} (stepped : Stepped s event next)
    (inv : SystemInv s) (none : NoneClosed s.server) :
    NoneClosed next.server ↔ BroadcastAccepted s event := by
  cases stepped with
  | turns event phase notParse =>
    refine iff_of_true none ?_
    unfold BroadcastAccepted
    split
    · exact absurd rfl (notParse _)
    · trivial
  | drops => exact iff_of_true none trivial
  | opens arrival buf conn writeBuf =>
    refine iff_of_true (fun other member => ?_) trivial
    rcases List.mem_cons.mp member with rfl | old
    · rfl
    · exact none other old
  | adds => exact iff_of_true none trivial
  | gives fd => exact iff_of_true (forall_connDestroy none fd) trivial
  | flushes fd conn _ found flushes =>
    obtain ⟨member, isFd⟩ := connOf_spec found
    refine iff_of_true (forall_changeConn (fun _ _ _ => ?_) none) trivial
    -- a flush that fails destroys the connection
    rcases (connFlush_flushed (inv.server.counted conn member)).closed with ⟨-, same⟩ | ⟨failed, -⟩
    · exact same.trans (none conn member)
    · have zero : ¬ (connFlush conn).1 ≠ 0 := of_decide_eq_false flushes
      rw [failed] at zero
      exact absurd (show (-1 : Int) ≠ 0 by decide) zero
  | breaks fd conn _ found =>
    obtain ⟨isConn, isFd⟩ := connOf_spec found
    have same := (connFlush_flushed (inv.server.counted conn isConn)).same
    exact iff_of_true (fun other member => none other
      (mem_connDestroy_changeConn (fun _ _ _ => same.fd.trans isFd) member)) trivial
  | ends fd => exact iff_of_true (forall_connDestroy none fd) trivial
  | reads fd bytes =>
    exact iff_of_true (forall_changeConn (fun other member _ => none other member) none) trivial
  | round fd conn malloc _ phase found round => exact round.noneClosed_iff inv none phase found

end Step

/-! ### Whole runs -/

section Runs

variable {s : System}

/-- **A closed connection is inert in every run whose broadcasts are accepted by the other receivers**,
which are exactly the runs in which no connection of the list is ever marked as closed. -/
theorem closed_connection_inert {config : ZedisConfig} {mapped : Option (Nat → UInt8)}
    {stack : Nat → UInt8} {start : System} {events : List SystemEvent}
    (made : systemCreate config mapped stack = some start)
    (run : Run systemStep Always start events s) :
    ((∀ n middle, Run systemStep Always start (events.take n) middle → NoneClosed middle.server) ↔
        Run systemStep BroadcastAccepted start events s) ∧
      (Run systemStep BroadcastAccepted start events s →
        ∀ n middle, Run systemStep Always start (events.take n) middle → ClosedInert middle) := by
  have created := systemCreate_created made
  have sharp := Run.throughout_iff SystemInv (fun s => NoneClosed s.server)
    (fun s event next inv _ taken => inv.step taken)
    (fun s event next inv none taken => (systemStep_stepped inv taken).noneClosed_iff inv none) run
    created.inv (by rw [NoneClosed, created.conns]; exact nofun)
  refine ⟨sharp, fun accepted n middle before fd conn malloc next _ found closed => ?_⟩
  have isOpen := sharp.mpr accepted n middle before conn (connOf_spec found).1
  rw [closed] at isOpen
  cases isOpen

/-- Two clients, of which the first subscribes to a channel and the second publishes on it. -/
def sampleBroadcast : List SystemEvent :=
  sampleOpens 5 [.takes 99, .takes 99] ++ sampleOpens 6 [.takes 99] ++
    sampleSends 5 (ascii "SUBSCRIBE c\r\n") 2 ++ sampleSends 6 (ascii "PUBLISH c m\r\n") 2

/-- A broadcast that its subscriber accepts. -/
theorem closed_connection_inert_broadcast : ∃ start s conn,
    systemCreate { sampleConfig with maxConnections := 2 } (some fun _ => 0) (fun _ => 0) = some start ∧
      Run systemStep BroadcastAccepted start sampleBroadcast s ∧ connOf s.server 5 = some conn ∧
      conn.socket.accepted = subscribeText (ascii "c") ++ encode (published (ascii "c") (ascii "m")) ∧
      ∀ n middle, Run systemStep Always start (sampleBroadcast.take n) middle →
        NoneClosed middle.server ∧ ClosedInert middle := by
  have shown : (sampleSystem { sampleConfig with maxConnections := 2 } sampleBroadcast).bind (fun s =>
      (connOf s.server 5).map fun conn => conn.socket.accepted) =
        some (subscribeText (ascii "c") ++ encode (published (ascii "c") (ascii "m"))) := by
    decide +kernel
  obtain ⟨s, returned, seen⟩ := Option.bind_eq_some_iff.mp shown
  obtain ⟨conn, found, accepted⟩ := Option.map_eq_some_iff.mp seen
  obtain ⟨start, made, run⟩ := sampleSystem_run returned
  -- no connection of the list is closed on the way
  have isOpen : ∀ n < sampleBroadcast.length + 1,
      (sampleSystem { sampleConfig with maxConnections := 2 } (sampleBroadcast.take n)).all
        (fun s => s.server.conns.all fun conn => !conn.closed) = true := by decide +kernel
  have none : ∀ n middle, Run systemStep Always start (sampleBroadcast.take n) middle →
      NoneClosed middle.server := by
    intro n middle before conn member
    have small : sampleBroadcast.take n = sampleBroadcast.take (min n sampleBroadcast.length) := by
      rw [List.take_eq_take_min]
    have seen := isOpen (min n sampleBroadcast.length) (Nat.lt_succ_of_le (min_le_right _ _))
    rw [← small, sampleSystem, made, Option.bind_some, before.replay_eq, Option.all_some,
      List.all_eq_true] at seen
    simpa using seen conn member
  obtain ⟨sharp, inert⟩ := closed_connection_inert made run
  have accepting := sharp.mp none
  exact ⟨start, s, conn, made, accepting, found, accepted, fun n middle before =>
    ⟨none n middle before, inert accepting n middle before⟩⟩

/-- Two clients. The first subscribes and has more than 4000 bytes of replies pending; the message of
the second does not fit, and the first is marked as closed. Then its socket takes the replies, and it
sends one more command. -/
def sampleOverflow : List SystemEvent :=
  sampleOpens 5 (List.replicate 27 .again ++ [.takes 4095]) ++ sampleOpens 6 [.takes 4095] ++
    sampleSends 5 (ascii "SUBSCRIBE c\r\nSET k " ++ List.replicate 154 118 ++ ascii "\r\n" ++
      (List.replicate 25 (ascii "GET k\r\n")).flatten) 28 ++
    sampleSends 6 (ascii "PUBLISH c m\r\n") 2 ++
    [.ready 5, .ready 5, .read (.data (ascii "DEL k\r\n"))]

/-- **A closed connection's `DEL` is executed.** -/
theorem closed_connection_deletes : ∃ start s next conn,
    systemCreate { sampleConfig with maxConnections := 2 } (some fun _ => 0) (fun _ => 0) = some start ∧
      Run systemStep Always start sampleOverflow s ∧ s.phase = .dispatching 5 ∧
      connOf s.server 5 = some conn ∧ conn.closed = true ∧
      systemStep s (.parse fun _ => true) = some next ∧
      s.server.kv.count = 1 ∧ next.server.kv.count = 0 ∧ ¬ ClosedInert s := by
  have shown : (sampleSystem { sampleConfig with maxConnections := 2 } sampleOverflow).bind (fun s =>
      (connOf s.server 5).bind fun conn => (systemStep s (.parse fun _ => true)).map fun next =>
        (s.phase, conn.closed, s.server.kv.count, next.server.kv.count)) =
      some (.dispatching 5, true, 1, 0) := by decide +kernel
  obtain ⟨s, returned, seen⟩ := Option.bind_eq_some_iff.mp shown
  obtain ⟨conn, found, seen⟩ := Option.bind_eq_some_iff.mp seen
  obtain ⟨next, taken, seen⟩ := Option.map_eq_some_iff.mp seen
  obtain ⟨start, made, run⟩ := sampleSystem_run returned
  obtain ⟨phase, seen⟩ := Prod.mk.inj seen
  obtain ⟨closed, seen⟩ := Prod.mk.inj seen
  obtain ⟨one, none⟩ := Prod.mk.inj seen
  refine ⟨start, s, next, conn, made, run, phase, found, closed, taken, one, none, fun inert => ?_⟩
  have same := (inert 5 conn _ next phase found closed taken).kv
  rw [same, one] at none
  cases none

end Runs

end Zedis.EventLoop

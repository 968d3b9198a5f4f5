/-
**What holds in every state of the running server.**

`SystemInv`: the server has its invariant, `conn_count` counts the connections, the handler that is
under way is on a connection that is there, every connection but the one that is being registered has a
handler, and every parser and its nodes are in order. One lemma for each part of a handler says all it
can do (`createConn_cases`, `dispatchRound_round`); with the invariant a round of
`server_dispatch_commands` returns, whatever was read.
-/

import Zedis.EventLoop.Model
import Zedis.Resp.Refined
import Zedis.Server.Conns
import Zedis.Slab.Layout

namespace Zedis.EventLoop

open Zedis.Lib Zedis.Resp Zedis.Connection Zedis.Slab Zedis.Server

/-! ### Descriptors and parsers -/

section Readers

variable {server after : ZedisServer} {fd : Nat} {conn : Conn}

/-- The descriptors of some connections, with their parsers. -/
def readers (conns : List Conn) : List (Nat × RespParser) :=
  conns.map fun conn => (conn.fd, conn.parser)

theorem fds_eq (conns : List Conn) : conns.map Conn.fd = (readers conns).map Prod.fst := by
  rw [readers, List.map_map]
  rfl

/-- One of the descriptors is taken out. -/
theorem length_filter_ne {pairs : List (Nat × RespParser)} (nodup : (pairs.map Prod.fst).Nodup)
    (present : fd ∈ pairs.map Prod.fst) :
    pairs.length = (pairs.filter fun pair => pair.1 ≠ fd).length + 1 := by
  induction pairs with
  | nil => cases present
  | cons pair pairs ih =>
    rw [List.map_cons, List.nodup_cons] at nodup
    by_cases isFirst : pair.1 = fd
    · have others : pairs.filter (fun pair => pair.1 ≠ fd) = pairs := by
        refine List.filter_eq_self.mpr fun other member => ?_
        refine decide_eq_true fun same => nodup.1 ?_
        rw [isFirst, ← same]
        exact List.mem_map_of_mem member
      rw [List.filter_cons_of_neg (by simp [isFirst]), others, List.length_cons]
    · have later : fd ∈ pairs.map Prod.fst := by
        rcases List.mem_cons.mp present with same | later
        · exact absurd same.symm isFirst
        · exact later
      rw [List.filter_cons_of_pos (by simpa using isFirst), List.length_cons, List.length_cons,
        ih nodup.2 later]

theorem readers_filter (conns : List Conn) (fd : Nat) :
    readers (conns.filter fun conn => conn.fd ≠ fd) =
      (readers conns).filter fun reader => reader.1 ≠ fd := by
  rw [readers, readers, List.filter_map]
  rfl

theorem readers_connDestroy (server : ZedisServer) (fd : Nat) :
    readers (connDestroy server fd).conns = (readers server.conns).filter fun reader => reader.1 ≠ fd :=
  readers_filter server.conns fd

/-- A change that keeps descriptors and parsers. -/
theorem readers_changeConn {conns : List Conn} {change : Conn → Conn}
    (same : ∀ conn ∈ conns, conn.fd = fd → (change conn).fd = conn.fd ∧
      (change conn).parser = conn.parser) : readers (changeConn conns fd change) = readers conns := by
  rw [readers, readers, changeConn, List.map_map]
  refine List.map_congr_left fun conn member => ?_
  change ((if conn.fd = fd then change conn else conn).fd,
    (if conn.fd = fd then change conn else conn).parser) = (conn.fd, conn.parser)
  split
  · rename_i isTarget
    obtain ⟨sameFd, sameParser⟩ := same conn member isTarget
    rw [sameFd, sameParser]
  · rfl

/-- Calls keep the descriptors and parsers. -/
theorem readers_of_sent {conns : List Conn} {calls : List QueueCall} (sent : Sent server conns after calls)
    (counted : ∀ conn ∈ conns, Counted conn) : readers after.conns = readers conns := by
  rw [sent.conns, readers, readers, List.map_map]
  refine List.map_congr_left fun conn member => ?_
  have same := afterCalls_same server.stack (counted conn member) calls
  exact Prod.ext same.fd same.parser

/-- The reply to a protocol error. -/
def protocolCall (fd : Nat) : QueueCall := encodedCall fd 64 (.error (ascii "ERR protocol error"))

theorem protocolError_eq (fd : Nat) (server : ZedisServer) :
    protocolError fd server = connDestroy (queueWrite server (protocolCall fd)) fd := rfl

/-- **A command keeps the descriptors and parsers**, but for `QUIT`. -/
theorem serverHandleCommand_readers (inv : ServerInv server) {cmd : RespValue Bytes} {rc : Int}
    (runs : serverHandleCommand server fd cmd = some (rc, after)) :
    rc ≠ 0 ∧ after = connDestroy server fd ∨ rc = 0 ∧ readers after.conns = readers server.conns := by
  rcases serverHandleCommand_conns runs with ⟨-, rfl, same⟩ | ⟨-, zero, calls, sent, -⟩
  · exact Or.inl ⟨by decide, same⟩
  · have subscribed : readers (subscribing server fd cmd) = readers server.conns := by
      unfold subscribing
      split
      · exact readers_changeConn fun _ _ _ => ⟨rfl, rfl⟩
      · rfl
    exact Or.inr ⟨zero,
      (readers_of_sent sent fun _ member => counted_subscribing inv member).trans subscribed⟩

/-- **Everything `server_dispatch_commands` can do with a command.** -/
theorem dispatchCommand_cases (inv : ServerInv server) (fd : Nat) (cmd : RespValue Bytes) :
    ∃ next destroyed, dispatchCommand fd server cmd = some (next, destroyed) ∧ ServerInv next ∧
      readers next.conns = if destroyed then (readers server.conns).filter fun reader => reader.1 ≠ fd
        else readers server.conns := by
  obtain ⟨rc, after, _, _, ends, emits, -⟩ := serverHandleCommand_handled inv fd cmd
  rw [dispatchCommand, ends, Option.map_some]
  dsimp only
  rcases serverHandleCommand_readers inv ends with ⟨quit, rfl⟩ | ⟨zero, same⟩
  · rw [if_pos quit]
    exact ⟨_, true, rfl, inv.connDestroy fd, readers_connDestroy server fd⟩
  · rw [if_neg (not_not.mpr zero)]
    split
    · refine ⟨_, true, rfl, emits.inv.connDestroy fd, ?_⟩
      rw [readers_connDestroy, same, if_pos rfl]
    · exact ⟨after, false, rfl, emits.inv, same⟩

/-- What a dispatched command leaves is what its handler has left, with the connection or without it. -/
theorem dispatchCommand_eq_some {cmd : RespValue Bytes} {destroyed : Bool}
    (ends : dispatchCommand fd server cmd = some (after, destroyed)) : ∃ rc handled,
      serverHandleCommand server fd cmd = some (rc, handled) ∧
        (after = handled ∨ after = connDestroy handled fd) := by
  obtain ⟨⟨rc, handled⟩, handles, isAfter⟩ := Option.map_eq_some_iff.mp ends
  refine ⟨rc, handled, handles, ?_⟩
  dsimp only at isAfter
  split at isAfter
  · cases isAfter
    exact Or.inl rfl
  · split at isAfter
    · cases isAfter
      exact Or.inr rfl
    · cases isAfter
      exact Or.inl rfl

/-- What is left when a connection is changed and then destroyed: the others. -/
theorem mem_connDestroy_changeConn {change : Conn → Conn}
    (keeps : ∀ conn ∈ server.conns, conn.fd = fd → (change conn).fd = fd)
    (member : conn ∈ (connDestroy { server with conns := changeConn server.conns fd change } fd).conns) :
    conn ∈ server.conns := by
  obtain ⟨inside, differs⟩ := List.mem_filter.mp member
  obtain ⟨old, listed, ⟨isFd, rfl⟩ | ⟨-, rfl⟩⟩ := mem_changeConn inside
  · exact absurd (keeps old listed isFd) (of_decide_eq_true differs)
  · exact listed

theorem mem_protocolError (inv : ServerInv server)
    (member : conn ∈ (protocolError fd server).conns) : conn ∈ server.conns :=
  mem_connDestroy_changeConn (fun old listed isFd =>
    (connQueueWrite_queued (inv.counted old listed) _).same.fd.trans isFd) member

/-- After a protocol error the connection is gone. -/
theorem protocolError_spec (inv : ServerInv server) (fd : Nat) :
    ServerInv (protocolError fd server) ∧ readers (protocolError fd server).conns =
      (readers server.conns).filter fun reader => reader.1 ≠ fd := by
  rw [protocolError_eq]
  have sent := (Sent.refl server).queue (protocolCall fd)
  refine ⟨(inv.queueWrite _).connDestroy fd, ?_⟩
  rw [readers_connDestroy, readers_of_sent sent inv.counted]

end Readers

/-! ### The invariant -/

/-- The connection that the handler under way is on. -/
def Phase.target : Phase → Option Nat
  | .waiting => none
  | .accepting => none
  | .registering fd => some fd
  | .reading fd => some fd
  | .dispatching fd => some fd

/-- A parser of a connection. -/
structure ParserOk (parser : RespParser) : Prop where
  valid : parser.Valid
  bufCap : parser.bufCap = 64 * 1024

/-- **The invariant of the running server.** -/
structure SystemInv (s : System) : Prop where
  server : ServerInv s.server
  count : s.connCount = (readers s.server.conns).length
  target : ∀ fd, s.phase.target = some fd → fd ∈ s.server.conns.map Conn.fd
  registered : ∀ fd, s.registered fd = true ↔
    fd ∈ s.server.conns.map Conn.fd ∧ s.phase ≠ .registering fd
  parsers : ∀ reader ∈ readers s.server.conns, ParserOk reader.2
  nodes : ∀ fd ∈ s.server.conns.map Conn.fd, ∃ free, FreeNodes (s.memory fd).nodes free

section Operations

variable {s : System} {fd : Nat}

/-- The handler goes on, or ends. -/
theorem SystemInv.setPhase (inv : SystemInv s) (phase : Phase)
    (before : ∀ fd, s.phase ≠ .registering fd) (after : ∀ fd, phase ≠ .registering fd)
    (target : ∀ fd, phase.target = some fd → fd ∈ s.server.conns.map Conn.fd) :
    SystemInv { s with phase := phase } where
  server := inv.server
  count := inv.count
  target := target
  registered := fun fd => by
    rw [inv.registered fd]
    exact and_congr_right fun _ => ⟨fun _ => after fd, fun _ => before fd⟩
  parsers := inv.parsers
  nodes := inv.nodes

/-- The connections change, but for their descriptors and parsers. -/
theorem SystemInv.setServer (inv : SystemInv s) {server : ZedisServer} (kept : ServerInv server)
    (same : readers server.conns = readers s.server.conns) : SystemInv { s with server := server } := by
  have fds : server.conns.map Conn.fd = s.server.conns.map Conn.fd := by rw [fds_eq, fds_eq, same]
  refine ⟨kept, ?_, ?_, ?_, ?_, ?_⟩
  · rw [same]
    exact inv.count
  · rw [fds]
    exact inv.target
  · rw [fds]
    exact inv.registered
  · rw [same]
    exact inv.parsers
  · rw [fds]
    exact inv.nodes

/-- The parser of a connection changes. -/
theorem SystemInv.setParser (inv : SystemInv s) (fd : Nat) (change : RespParser → RespParser)
    (ok : ∀ conn ∈ s.server.conns, conn.fd = fd → ParserOk (change conn.parser)) :
    SystemInv (s.setConn fd fun conn => { conn with parser := change conn.parser }) := by
  have fds : (changeConn s.server.conns fd fun conn =>
      { conn with parser := change conn.parser }).map Conn.fd = s.server.conns.map Conn.fd :=
    changeConn_fds fun _ _ same => same
  refine ⟨inv.server.changeConn fd _ (fun _ _ same => same) fun conn member _ =>
    ⟨(inv.server.counted conn member).sent, (inv.server.counted conn member).room⟩, ?_, ?_, ?_, ?_, ?_⟩
  · change s.connCount = (readers (changeConn s.server.conns fd _)).length
    rw [inv.count, readers, readers, changeConn]
    simp only [List.length_map]
  · intro other isTarget
    exact fds ▸ inv.target other isTarget
  · intro other
    change _ ↔ other ∈ (changeConn s.server.conns fd _).map Conn.fd ∧ _
    rw [fds]
    exact inv.registered other
  · intro reader member
    obtain ⟨after, inside, rfl⟩ := List.mem_map.mp member
    obtain ⟨conn, old, ⟨isTarget, rfl⟩ | ⟨-, rfl⟩⟩ := mem_changeConn inside
    · exact ok conn old isTarget
    · exact inv.parsers _ (List.mem_map_of_mem old)
  · intro other member
    exact inv.nodes other (fds ▸ member)

theorem readers_flushed (inv : SystemInv s) {conn : Conn} (found : connOf s.server fd = some conn) :
    readers (changeConn s.server.conns fd fun _ => (connOnWritable conn).2) =
      readers s.server.conns := by
  obtain ⟨member, isFd⟩ := connOf_spec found
  have same := (connFlush_flushed (inv.server.counted conn member)).same
  refine readers_changeConn fun other member' isFd' => ?_
  cases List.inj_on_of_nodup_map inv.server.fds member member' (isFd.trans isFd'.symm)
  exact ⟨same.fd, same.parser⟩

/-- `conn_on_writable` has flushed. -/
theorem SystemInv.flushed (inv : SystemInv s) {conn : Conn} (found : connOf s.server fd = some conn) :
    SystemInv (s.setConn fd fun _ => (connOnWritable conn).2) := by
  obtain ⟨member, isFd⟩ := connOf_spec found
  have flushed := connFlush_flushed (inv.server.counted conn member)
  exact inv.setServer (inv.server.changeConn fd _ (fun _ _ _ => flushed.same.fd.trans isFd)
    fun _ _ _ => flushed.counted) (readers_flushed inv found)

theorem memory_setNodes_self (s : System) (fd : Nat) (nodes : NodePool) :
    (s.setNodes fd nodes).memory fd = { s.memory fd with nodes := nodes } :=
  Function.update_self _ _ _

theorem memory_setNodes_of_ne {other : Nat} {nodes : NodePool} (differs : other ≠ fd) :
    (s.setNodes fd nodes).memory other = s.memory other :=
  Function.update_of_ne differs _ _

/-- The nodes of a parser change. -/
theorem SystemInv.setNodes (inv : SystemInv s) {nodes : NodePool} {free : List Nat}
    (ok : FreeNodes nodes free) : SystemInv (s.setNodes fd nodes) where
  server := inv.server
  count := inv.count
  target := inv.target
  registered := inv.registered
  parsers := inv.parsers
  nodes := fun other member => by
    by_cases same : other = fd
    · subst same
      refine ⟨free, ?_⟩
      rw [memory_setNodes_self]
      exact ok
    · obtain ⟨free, old⟩ := inv.nodes other member
      refine ⟨free, ?_⟩
      rw [memory_setNodes_of_ne same]
      exact old

/-- What the slab grants does not matter here. -/
theorem SystemInv.setSlab (inv : SystemInv s) (slab : ZedisSlab) :
    SystemInv { s with slab := slab } :=
  ⟨inv.server, inv.count, inv.target, inv.registered, inv.parsers, inv.nodes⟩

/-- **A connection is destroyed**: the others stay. -/
theorem SystemInv.freed (inv : SystemInv s) {server : ZedisServer} (kept : ServerInv server)
    (others : readers server.conns = (readers s.server.conns).filter fun reader => reader.1 ≠ fd)
    (present : fd ∈ s.server.conns.map Conn.fd)
    (phase : ∀ other, s.phase = .registering other → other = fd) :
    SystemInv (connFreed s server fd) := by
  have fds : ∀ other, other ∈ server.conns.map Conn.fd ↔
      other ∈ s.server.conns.map Conn.fd ∧ other ≠ fd := by
    intro other
    rw [fds_eq, fds_eq, others]
    simp only [List.mem_map, List.mem_filter, decide_eq_true_eq]
    constructor
    · rintro ⟨reader, ⟨member, differs⟩, rfl⟩
      exact ⟨⟨reader, member, rfl⟩, differs⟩
    · rintro ⟨⟨reader, member, rfl⟩, differs⟩
      exact ⟨reader, ⟨member, differs⟩, rfl⟩
  have fewer : (readers s.server.conns).length = (readers server.conns).length + 1 := by
    have nodup := inv.server.fds
    rw [fds_eq] at nodup present
    rw [others]
    exact length_filter_ne nodup present
  refine ⟨kept, ?_, nofun, fun other => ?_, fun reader member => ?_, fun other member => ?_⟩
  · change (if s.connCount > 0 then s.connCount - 1 else s.connCount) = _
    rw [inv.count, fewer, if_pos (Nat.succ_pos _)]
    rfl
  · change Function.update s.registered fd false other = true ↔
      other ∈ server.conns.map Conn.fd ∧ Phase.waiting ≠ .registering other
    rw [fds other]
    by_cases same : other = fd
    · rw [same, Function.update_self]
      exact ⟨nofun, fun ⟨⟨_, differs⟩, _⟩ => absurd rfl differs⟩
    · rw [Function.update_of_ne same, inv.registered other]
      constructor
      · exact fun ⟨member, _⟩ => ⟨⟨member, same⟩, nofun⟩
      · exact fun ⟨⟨member, _⟩, _⟩ => ⟨member, fun isPhase => same (phase other isPhase)⟩
  · change reader ∈ readers server.conns at member
    rw [others] at member
    exact inv.parsers reader (List.mem_of_mem_filter member)
  · exact inv.nodes other ((fds other).mp member).1

/-- `conn_destroy`. -/
theorem SystemInv.destroyConn (inv : SystemInv s) (present : fd ∈ s.server.conns.map Conn.fd)
    (phase : ∀ other, s.phase = .registering other → other = fd) : SystemInv (destroyConn s fd) :=
  inv.freed (inv.server.connDestroy fd) (readers_connDestroy s.server fd) present phase

end Operations

/-! ### New connections -/

section Create

variable {s next : System} {arrival : Arrival}

/-- There is memory for a connection: a buffer for the parser, and a block of each size. -/
def Supplied (s : System) (arrival : Arrival) : Prop :=
  arrival.buffer.isSome = true ∧ (s.slab.pools slab512).freeList.isSome = true ∧
    (s.slab.pools slab4096).freeList.isSome = true

/-- The system with a new connection, whose blocks are the first free ones. -/
def opened (s : System) (arrival : Arrival) (buf : Nat → UInt8) (conn writeBuf : Nat) : System :=
  { s with
    server := { s.server with
      conns := connCreate arrival.fd ⟨buf, 64 * 1024, 0, 0⟩ arrival.writeBuf arrival.answers ::
        s.server.conns }
    slab := ⟨Function.update (Function.update s.slab.pools slab512 (popped (s.slab.pools slab512) conn)) slab4096
      (popped (s.slab.pools slab4096) writeBuf)⟩
    connCount := s.connCount + 1
    memory := Function.update s.memory arrival.fd
      ⟨conn + slabDataOffset, writeBuf + slabDataOffset, newNodes⟩ }

/-- **Everything `conn_create` can do**: without the memory it leaves the slab as it was. -/
theorem createConn_cases (s : System) (arrival : Arrival) :
    ¬ Supplied s arrival ∧ createConn s arrival = (false, s) ∨
      ∃ buf conn writeBuf, arrival.buffer = some buf ∧ (s.slab.pools slab512).freeList = some conn ∧
        (s.slab.pools slab4096).freeList = some writeBuf ∧
        createConn s arrival = (true, opened s arrival buf conn writeBuf) := by
  have chosen : poolForSize (slabClass slab512) = some slab512 := rfl
  have chosen' : poolForSize zedisConnWriteSize = some slab4096 := rfl
  cases head : (s.slab.pools slab512).freeList with
  | none =>
    refine Or.inl ⟨fun supplied => by simp [Supplied, head] at supplied, ?_⟩
    simp only [createConn, zedisSlabAlloc_none s.slab chosen head]
  | some conn =>
    cases buffer : arrival.buffer with
    | none =>
      refine Or.inl ⟨fun supplied => by simp [Supplied, buffer] at supplied, ?_⟩
      simp only [createConn, zedisSlabAlloc_some s.slab chosen head, buffer, respParserInitEx,
        Option.map_none, zedisSlabFree_popped s.slab chosen head]
    | some buf =>
      let slab : ZedisSlab := ⟨Function.update s.slab.pools slab512 (popped (s.slab.pools slab512) conn)⟩
      have others : slab.pools slab4096 = s.slab.pools slab4096 :=
        Function.update_of_ne (show slab4096 ≠ slab512 by decide) (popped (s.slab.pools slab512) conn) _
      cases head' : (s.slab.pools slab4096).freeList with
      | none =>
        refine Or.inl ⟨fun supplied => by simp [Supplied, head'] at supplied, ?_⟩
        have full := zedisSlabAlloc_none slab chosen' (by rw [others]; exact head')
        simp only [createConn, zedisSlabAlloc_some s.slab chosen head, buffer, respParserInitEx,
          Option.map_some, full, slab, zedisSlabFree_popped s.slab chosen head]
      | some writeBuf =>
        refine Or.inr ⟨buf, conn, writeBuf, rfl, rfl, rfl, ?_⟩
        have granted := zedisSlabAlloc_some slab chosen' (by rw [others]; exact head')
        rw [others] at granted
        simp only [createConn, zedisSlabAlloc_some s.slab chosen head, buffer, respParserInitEx,
          Option.map_some, granted, slab]
        rfl

/-- **Everything the loop of `server_on_accept` can do with a connection.** -/
theorem acceptStep_cases (taken : acceptStep s (some arrival) = some next) :
    arrival.fd ∉ s.server.conns.map Conn.fd ∧
      (¬ (arrival.nonblocking = true ∧ Supplied s arrival) ∧ next = s ∨
        ∃ buf conn writeBuf, arrival.nonblocking = true ∧ arrival.buffer = some buf ∧
          (s.slab.pools slab512).freeList = some conn ∧ (s.slab.pools slab4096).freeList = some writeBuf ∧
          next = { opened s arrival buf conn writeBuf with phase := .registering arrival.fd }) := by
  rw [acceptStep] at taken
  obtain ⟨free, taken⟩ := Option.ite_none_left_eq_some.mp taken
  refine ⟨fun used => free (connected_iff.mpr used), ?_⟩
  split at taken
  · rename_i blocking
    cases taken
    refine Or.inl ⟨fun ⟨nonblocking, _⟩ => ?_, rfl⟩
    rw [blocking] at nonblocking
    cases nonblocking
  · rename_i nonblocking
    rw [Bool.not_eq_false] at nonblocking
    rcases createConn_cases s arrival with
      ⟨missing, fails⟩ | ⟨buf, conn, writeBuf, buffer, head, head', makes⟩
    · rw [fails] at taken
      cases taken
      exact Or.inl ⟨fun ⟨_, supplied⟩ => missing supplied, rfl⟩
    · rw [makes] at taken
      cases taken
      exact Or.inr ⟨buf, conn, writeBuf, nonblocking, buffer, head, head', rfl⟩

/-- A new connection has its place, and no handler yet. -/
theorem SystemInv.opened (inv : SystemInv s) (phase : s.phase = .accepting)
    (fresh : arrival.fd ∉ s.server.conns.map Conn.fd) (buf : Nat → UInt8) (conn writeBuf : Nat) :
    SystemInv { opened s arrival buf conn writeBuf with phase := .registering arrival.fd } where
  server := by
    refine ⟨inv.server.kv, inv.server.registries, List.nodup_cons.mpr ⟨fresh, inv.server.fds⟩, ?_⟩
    intro conn member
    rcases List.mem_cons.mp member with rfl | old
    · exact ⟨le_rfl, Nat.zero_le _⟩
    · exact inv.server.counted conn old
  count := congrArg (· + 1) inv.count
  target := fun fd isTarget => by
    cases isTarget
    exact List.mem_cons_self
  registered := fun fd => by
    change s.registered fd = true ↔ fd ∈ arrival.fd :: s.server.conns.map Conn.fd ∧
      Phase.registering arrival.fd ≠ .registering fd
    rw [inv.registered fd, phase, List.mem_cons]
    constructor
    · rintro ⟨member, -⟩
      exact ⟨Or.inr member, fun same => fresh (Phase.registering.inj same ▸ member)⟩
    · rintro ⟨rfl | member, other⟩
      · exact absurd rfl other
      · exact ⟨member, nofun⟩
  parsers := fun reader member => by
    rcases List.mem_cons.mp member with rfl | old
    · exact ⟨⟨Nat.le_refl 0, Nat.zero_le _, show 64 * 1024 < 2 ^ 63 - 1 by decide⟩, rfl⟩
    · exact inv.parsers reader old
  nodes := fun fd member => by
    change ∃ free, FreeNodes (Function.update s.memory arrival.fd _ fd).nodes free
    rcases List.mem_cons.mp member with rfl | old
    · rw [connCreate, Function.update_self]
      exact ⟨[], freeNodes_new _⟩
    · rw [Function.update_of_ne (ne_of_mem_of_not_mem old fresh)]
      exact inv.nodes fd old

end Create

/-! ### A round of `server_dispatch_commands` -/

section Round

variable {s : System} {fd : Nat} {conn : Conn}

/-- **What a round can do**: more bytes are needed; the connection is destroyed after a protocol error;
or by a command; or a command is handled. The command is the one at the front of the unread bytes. -/
inductive Round (s : System) (fd : Nat) (conn : Conn) (malloc : Nat → Bool) : System → Prop
  | waits (parser : RespParser) (nodes : NodePool) :
      nextNodes (grants s.slab (s.memory fd).nodes.asked malloc) conn.parser (s.memory fd).nodes =
        some (.needMore, parser, nodes) →
      Round s fd conn malloc { s.parsed fd parser nodes with phase := .reading fd }
  | protests (parser : RespParser) (nodes : NodePool) :
      nextNodes (grants s.slab (s.memory fd).nodes.asked malloc) conn.parser (s.memory fd).nodes =
        some (.error, parser, nodes) →
      Round s fd conn malloc (connFreed (s.parsed fd parser nodes)
        (protocolError fd (s.parsed fd parser nodes).server) fd)
  | destroys (parser : RespParser) (nodes : NodePool) (out : RespValueT) (cmd : RespValue Bytes)
      (rest : Bytes) (server : ZedisServer) :
      nextNodes (grants s.slab (s.memory fd).nodes.asked malloc) conn.parser (s.memory fd).nodes =
        some (.ok out, parser, nodes) →
      decode (unread conn.parser) = some (.ok (cmd, rest)) →
      dispatchCommand fd (s.parsed fd parser nodes).server cmd = some (server, true) →
      Round s fd conn malloc (connFreed (s.parsed fd parser nodes) server fd)
  | handles (parser : RespParser) (nodes released : NodePool) (out : RespValueT)
      (cmd : RespValue Bytes) (rest : Bytes) (server : ZedisServer) :
      nextNodes (grants s.slab (s.memory fd).nodes.asked malloc) conn.parser (s.memory fd).nodes =
        some (.ok out, parser, nodes) →
      decode (unread conn.parser) = some (.ok (cmd, rest)) →
      dispatchCommand fd (s.parsed fd parser nodes).server cmd = some (server, false) →
      respValueRelease nodes out = some released → released.asked = nodes.asked →
      Round s fd conn malloc ({ s.parsed fd parser nodes with server := server }.setNodes fd released)

/-- A call of `resp_parser_next` leaves the parser in order, whatever it says. -/
theorem nextNodes_parserOk {malloc : Nat → Bool} {p last : RespParser} {pool nodes : NodePool}
    {said : Verdict RespValueT} {verdict : Verdict (RespValue Slice)} {after : RespParser}
    (ok : ParserOk p) (runs : nextNodes malloc p pool = some (said, last, nodes))
    (told : respParserNext p = some (verdict, after)) (isAfter : said ≠ .error → last = after) :
    ParserOk last := by
  by_cases failed : said = .error
  · -- The parser is as it was, or compacted.
    subst failed
    obtain ⟨⟨mine, pool'⟩, -, same⟩ := Option.map_eq_some_iff.mp runs
    cases mine with
    | needMore => cases same
    | ok result => cases same
    | error =>
      cases same
      split
      · obtain ⟨valid, -, cap, -⟩ := respCompact_spec ok.valid
        exact ⟨valid, cap.trans ok.bufCap⟩
      · exact ok
  · obtain ⟨_, _, again, valid, -⟩ := respParserNext_spec ok.valid
    cases told.symm.trans again
    rw [isAfter failed]
    exact ⟨valid, (respParserNext_moves ok.valid told).1.trans ok.bufCap⟩

/-- After the call, everything is in order. -/
theorem SystemInv.parsed (inv : SystemInv s) {parser : RespParser} (ok : ParserOk parser)
    {nodes : NodePool} {free : List Nat} (freeNodes : FreeNodes nodes free) :
    SystemInv (s.parsed fd parser nodes) :=
  ((inv.setSlab _).setNodes freeNodes).setParser fd (fun _ => parser) fun _ _ _ => ok

theorem SystemInv.parsed_server (inv : SystemInv s) (fd : Nat) (parser : RespParser)
    (nodes : NodePool) : ServerInv (s.parsed fd parser nodes).server :=
  inv.server.changeConn fd _ (fun _ _ same => same) fun conn member _ =>
    ⟨(inv.server.counted conn member).sent, (inv.server.counted conn member).room⟩

theorem fds_parsed (s : System) (fd : Nat) (parser : RespParser) (nodes : NodePool) :
    (s.parsed fd parser nodes).server.conns.map Conn.fd = s.server.conns.map Conn.fd :=
  changeConn_fds fun _ _ same => same

/-- **A round returns**, whatever was read and granted. -/
theorem dispatchRound_round (inv : SystemInv s) (phase : s.phase = .dispatching fd)
    (found : connOf s.server fd = some conn) (malloc : Nat → Bool) :
    ∃ next, dispatchRound s fd conn malloc = some next ∧ Round s fd conn malloc next ∧
      SystemInv next := by
  obtain ⟨member, isFd⟩ := connOf_spec found
  have present : fd ∈ s.server.conns.map Conn.fd := isFd ▸ List.mem_map_of_mem member
  have ok : ParserOk conn.parser := inv.parsers _ (List.mem_map_of_mem member)
  obtain ⟨free, start⟩ := inv.nodes fd present
  obtain ⟨verdict, after, told, -, decoded, -⟩ := respParserNext_spec ok.valid
  obtain ⟨said, last, nodes, runs, follows, isAfter⟩ :=
    nextNodes_follows (grants s.slab (s.memory fd).nodes.asked malloc) start told
  have parserOk := nextNodes_parserOk ok runs told fun said => isAfter (Or.inr said)
  have stays : ∀ other, s.phase ≠ .registering other := fun other => by rw [phase]; exact nofun
  unfold dispatchRound
  dsimp only
  rw [runs, Option.bind_some]
  have fails : ∀ {free : List Nat}, FreeNodes nodes free → said = .error →
      ∃ next, some (connFreed (s.parsed fd last nodes)
          (protocolError fd (s.parsed fd last nodes).server) fd) = some next ∧
        Round s fd conn malloc next ∧ SystemInv next := by
    rintro free freeNodes rfl
    have kept : SystemInv (s.parsed fd last nodes) := inv.parsed parserOk freeNodes
    obtain ⟨keptServer, others⟩ := protocolError_spec kept.server fd
    refine ⟨_, rfl, .protests last nodes runs, kept.freed keptServer others ?_ ?_⟩
    · exact kept.target fd (by change s.phase.target = some fd; rw [phase]; rfl)
    · exact fun other isPhase => absurd isPhase (stays other)
  cases follows with
  | needMore owns =>
    have kept : SystemInv (s.parsed fd last nodes) := inv.parsed parserOk owns.now
    refine ⟨_, rfl, .waits last nodes runs, kept.setPhase _ stays nofun fun other isTarget => ?_⟩
    exact kept.target other (by change s.phase.target = some other; rw [phase]; exact isTarget)
  | error owns => exact fails owns.now rfl
  | refused _ owns _ => exact fails owns.now rfl
  | @ok freeAfter used out value owns held =>
    obtain rfl := isAfter (Or.inr nofun)
    have kept : SystemInv (s.parsed fd last nodes) := inv.parsed parserOk owns.now
    have isTarget : (s.parsed fd last nodes).phase.target = some fd := by
      change s.phase.target = some fd
      rw [phase]
      rfl
    have reads := readValue_of_valueAt last.buf owns.length_used held
    obtain ⟨server, destroyed, ends, keptServer, others⟩ :=
      dispatchCommand_cases kept.server fd (value.contents last.buf)
    dsimp only
    rw [handleParsed, reads, Option.bind_some, ends, Option.bind_some]
    cases destroyed with
    | true =>
      exact ⟨_, rfl, .destroys last nodes out _ _ server runs decoded ends,
        kept.freed keptServer others (kept.target fd isTarget)
          fun other isPhase => absurd isPhase (stays other)⟩
    | false =>
      obtain ⟨released, freed, releases, owned, asked⟩ := respValueRelease_spec owns held
      dsimp only
      rw [if_neg Bool.false_ne_true, releases, Option.map_some]
      exact ⟨_, rfl, .handles last nodes released out _ _ server runs decoded ends releases asked,
        (kept.setServer keptServer others).setNodes owned.now⟩

end Round

/-! ### Steps -/

section Steps

variable {s next : System} {event : SystemEvent}

/-- **What an event can do.** -/
inductive Stepped (s : System) : SystemEvent → System → Prop
  /-- A handler starts, goes on or returns. -/
  | turns (event : SystemEvent) (phase : Phase) : (∀ malloc, event ≠ .parse malloc) →
      (∀ arrival, event ≠ .accept (some arrival)) → (∀ fd, s.phase ≠ .registering fd) →
      (∀ fd, phase ≠ .registering fd) →
      (∀ fd, phase.target = some fd → fd ∈ s.server.conns.map Conn.fd) →
      Stepped s event { s with phase := phase }
  | drops (arrival : Arrival) : s.phase = .accepting →
      ¬ (arrival.nonblocking = true ∧ Supplied s arrival) → Stepped s (.accept (some arrival)) s
  | opens (arrival : Arrival) (buf : Nat → UInt8) (conn writeBuf : Nat) : s.phase = .accepting →
      arrival.fd ∉ s.server.conns.map Conn.fd → arrival.nonblocking = true →
      arrival.buffer = some buf → (s.slab.pools slab512).freeList = some conn →
      (s.slab.pools slab4096).freeList = some writeBuf → Stepped s (.accept (some arrival))
        { opened s arrival buf conn writeBuf with phase := .registering arrival.fd }
  | adds (fd : Nat) (ok : Bool) : s.phase = .registering fd → Stepped s (.added ok)
      { s with registered := Function.update s.registered fd true, phase := .accepting }
  | gives (fd : Nat) (ok : Bool) : s.phase = .registering fd → Stepped s (.added ok)
      { destroyConn s fd with phase := .accepting }
  | flushes (fd : Nat) (conn : Conn) : s.phase = .waiting → connOf s.server fd = some conn →
      (connOnWritable conn).1 = false →
      Stepped s (.ready fd) (s.setConn fd fun _ => (connOnWritable conn).2)
  | breaks (fd : Nat) (conn : Conn) : s.phase = .waiting → connOf s.server fd = some conn →
      (connOnWritable conn).1 = true →
      Stepped s (.ready fd) (destroyConn (s.setConn fd fun _ => (connOnWritable conn).2) fd)
  | ends (fd : Nat) (answer : ReadResult) : s.phase = .reading fd →
      Stepped s (.read answer) (destroyConn s fd)
  | reads (fd : Nat) (bytes : Bytes) : s.phase = .reading fd →
      (∀ conn, connOf s.server fd = some conn → bytes.length ≤ respParserSpace conn.parser) →
      Stepped s (.read (.data bytes))
        { s.setConn fd (fun conn => { conn with parser := appendBytes conn.parser bytes }) with
          phase := .dispatching fd }
  | round (fd : Nat) (conn : Conn) (malloc : Nat → Bool) (next : System) :
      s.phase = .dispatching fd → connOf s.server fd = some conn → Round s fd conn malloc next →
      Stepped s (.parse malloc) next

theorem readyStep_stepped {fd : Nat} {conn : Conn} (phase : s.phase = .waiting)
    (found : connOf s.server fd = some conn) : Stepped s (.ready fd) (readyStep s fd conn) := by
  unfold readyStep
  split
  · cases fate : (connOnWritable conn).1 with
    | true =>
      have broken := Stepped.breaks fd conn phase found fate
      simpa only [fate, if_true] using broken
    | false =>
      have flushed := Stepped.flushes fd conn phase found fate
      simpa only [fate, Bool.false_eq_true, if_false] using flushed
  · refine .turns _ _ nofun nofun (fun other => by rw [phase]; exact nofun) nofun fun other isTarget => ?_
    cases isTarget
    obtain ⟨member, isFd⟩ := connOf_spec found
    exact isFd ▸ List.mem_map_of_mem member

theorem readStep_stepped {fd : Nat} {conn : Conn} {answer : ReadResult} (phase : s.phase = .reading fd)
    (found : connOf s.server fd = some conn) (taken : readStep s fd conn answer = some next) :
    Stepped s (.read answer) next := by
  unfold readStep at taken
  split at taken
  · cases taken
    exact .ends fd answer phase
  · cases answer with
    | again =>
      cases taken
      exact .turns _ _ nofun nofun (fun other => by rw [phase]; exact nofun) nofun nofun
    | fails =>
      cases taken
      exact .ends fd _ phase
    | closes =>
      cases taken
      exact .ends fd _ phase
    | data bytes =>
      obtain ⟨fits, same⟩ := Option.ite_none_left_eq_some.mp taken
      cases same
      refine .reads fd bytes phase fun other found' => ?_
      cases found.symm.trans found'
      exact Nat.not_lt.mp fun long => fits (Or.inr long)

/-- **Everything a step can do.** -/
theorem systemStep_stepped (inv : SystemInv s) (taken : systemStep s event = some next) :
    Stepped s event next := by
  cases event with
  | incoming =>
    rw [systemStep] at taken
    split at taken
    · rename_i phase
      cases taken
      refine .turns _ _ nofun nofun (fun fd => by rw [phase]; exact nofun) (fun fd => ?_)
        fun fd isTarget => ?_
      · split
        · exact nofun
        · exact nofun
      · split at isTarget
        · cases isTarget
        · cases isTarget
    · cases taken
  | accept arrival =>
    rw [systemStep] at taken
    split at taken
    · rename_i phase
      cases arrival with
      | none =>
        cases taken
        exact .turns _ _ nofun nofun (fun fd => by rw [phase]; exact nofun) nofun nofun
      | some arrival =>
        obtain ⟨fresh, ⟨refused, rfl⟩ | ⟨buf, conn, writeBuf, nonblocking, buffer, head, head', rfl⟩⟩ :=
          acceptStep_cases taken
        · exact .drops arrival phase refused
        · exact .opens arrival buf conn writeBuf phase fresh nonblocking buffer head head'
    · cases taken
  | added ok =>
    rw [systemStep] at taken
    split at taken
    · rename_i fd phase
      cases taken
      unfold addStep
      split
      · exact .adds fd ok phase
      · exact .gives fd ok phase
    · cases taken
  | ready fd =>
    rw [systemStep] at taken
    split at taken
    · rename_i phase
      obtain ⟨-, taken⟩ := Option.ite_none_right_eq_some.mp taken
      obtain ⟨conn, found, rfl⟩ := Option.map_eq_some_iff.mp taken
      exact readyStep_stepped phase found
    · cases taken
  | read answer =>
    rw [systemStep] at taken
    split at taken
    · rename_i fd phase
      obtain ⟨conn, found, taken⟩ := Option.bind_eq_some_iff.mp taken
      exact readStep_stepped phase found taken
    · cases taken
  | parse malloc =>
    rw [systemStep] at taken
    split at taken
    · rename_i fd phase
      obtain ⟨conn, found, taken⟩ := Option.bind_eq_some_iff.mp taken
      obtain ⟨next', ends, round, -⟩ := dispatchRound_round inv phase found malloc
      cases ends.symm.trans taken
      exact .round fd conn malloc _ phase found round
    · cases taken

/-- **Every step keeps the invariant.** -/
theorem SystemInv.step (inv : SystemInv s) (taken : systemStep s event = some next) :
    SystemInv next := by
  have present : ∀ {fd : Nat} {phase : Phase}, s.phase = phase → phase.target = some fd →
      fd ∈ s.server.conns.map Conn.fd := fun isPhase isTarget => inv.target _ (isPhase ▸ isTarget)
  cases systemStep_stepped inv taken with
  | turns _ phase _ _ before after target => exact inv.setPhase phase before after target
  | drops => exact inv
  | opens arrival buf conn writeBuf phase fresh => exact inv.opened phase fresh buf conn writeBuf
  | adds fd _ phase =>
    refine ⟨inv.server, inv.count, nofun, fun other => ?_, inv.parsers, inv.nodes⟩
    change Function.update s.registered fd true other = true ↔ _
    by_cases same : other = fd
    · rw [same, Function.update_self]
      exact ⟨fun _ => ⟨present phase rfl, nofun⟩, fun _ => rfl⟩
    · rw [Function.update_of_ne same, inv.registered other, phase]
      exact and_congr_right fun _ =>
        ⟨fun _ => nofun, fun _ isPhase => same (Phase.registering.inj isPhase).symm⟩
  | gives fd _ phase =>
    have freed := inv.destroyConn (present phase rfl) fun other isPhase =>
      (Phase.registering.inj (phase.symm.trans isPhase)).symm
    exact freed.setPhase .accepting nofun nofun nofun
  | flushes fd conn phase found => exact inv.flushed found
  | breaks fd conn phase found =>
    have kept := inv.flushed found
    obtain ⟨member, isFd⟩ := connOf_spec found
    refine kept.destroyConn ?_ fun other isPhase => ?_
    · change fd ∈ (changeConn s.server.conns fd _).map Conn.fd
      rw [fds_eq, readers_flushed inv found, ← fds_eq]
      exact isFd ▸ List.mem_map_of_mem member
    · exact absurd isPhase (by change s.phase ≠ _; rw [phase]; exact nofun)
  | ends fd _ phase =>
    exact inv.destroyConn (present phase rfl) fun other isPhase =>
      absurd isPhase (by rw [phase]; exact nofun)
  | reads fd bytes phase fits =>
    have kept := inv.setParser fd (fun parser => appendBytes parser bytes) ?_
    · refine kept.setPhase (.dispatching fd) ?_ nofun fun other isTarget => ?_
      · intro other
        change s.phase ≠ _
        rw [phase]
        exact nofun
      · cases isTarget
        exact kept.target fd (by change s.phase.target = some fd; rw [phase]; rfl)
    · intro conn member isFd
      have ok : ParserOk conn.parser := inv.parsers _ (List.mem_map_of_mem member)
      have written := ok.valid.written
      have room := fits conn (isFd ▸ connOf_of_mem inv.server member)
      unfold respParserSpace at room
      exact ⟨(appendBytes_spec ok.valid (by omega)).1, ok.bufCap⟩
  | round fd conn malloc _ phase found =>
    obtain ⟨next', ends, -, kept⟩ := dispatchRound_round inv phase found malloc
    rw [systemStep, phase] at taken
    dsimp only at taken
    rw [found, Option.bind_some, ends] at taken
    cases taken
    exact kept

/-- The loop of `server_dispatch_commands` never hangs: its next round returns. -/
theorem parse_returns (inv : SystemInv s) {fd : Nat} (phase : s.phase = .dispatching fd) {conn : Conn}
    (found : connOf s.server fd = some conn) (malloc : Nat → Bool) : ∃ next,
      systemStep s (.parse malloc) = some next ∧ Round s fd conn malloc next ∧ SystemInv next := by
  obtain ⟨next, ends, round, kept⟩ := dispatchRound_round inv phase found malloc
  refine ⟨next, ?_, round, kept⟩
  rw [systemStep, phase]
  dsimp only
  rw [found, Option.bind_some, ends]

/-! ### Runs -/

/-- A new system. -/
structure SystemCreated (config : ZedisConfig) (s : System) : Prop where
  inv : SystemInv s
  slab : SlabInv ⟨s.slab, []⟩
  conns : s.server.conns = []
  connCount : s.connCount = 0
  maxConnections : s.maxConnections = config.maxConnections

theorem systemCreate_created {config : ZedisConfig} {mapped : Option (Nat → UInt8)}
    {stack : Nat → UInt8} (made : systemCreate config mapped stack = some s) :
    SystemCreated config s := by
  obtain ⟨arena, -, made⟩ := Option.bind_eq_some_iff.mp made
  obtain ⟨⟨slab, arena'⟩, slabMade, made⟩ := Option.bind_eq_some_iff.mp made
  obtain ⟨server, serverMade, rfl⟩ := Option.map_eq_some_iff.mp made
  have created := zedisCreate_created serverMade
  have empty := created.conns
  refine ⟨⟨created.inv, ?_, nofun, ?_, ?_, ?_⟩, zedisSlabInit_inv slabMade, empty, rfl, rfl⟩
  · rw [empty]
    rfl
  · rw [empty]
    exact fun fd => ⟨nofun, fun ⟨member, _⟩ => by cases member⟩
  · rw [empty]
    exact nofun
  · rw [empty]
    exact nofun

/-- **The invariant holds in every state of every run.** -/
theorem systemInv_of_run {config : ZedisConfig} {mapped : Option (Nat → UInt8)} {stack : Nat → UInt8}
    {start : System} {ok : System → SystemEvent → Prop} {events : List SystemEvent}
    (made : systemCreate config mapped stack = some start) (run : Run systemStep ok start events s) :
    SystemInv s :=
  run.invariant SystemInv (fun _ _ _ inv _ taken => inv.step taken) (systemCreate_created made).inv

end Steps

/-! ### Small runs -/

section Sample

/-- The state of a small server after some events, in zeroed memory. -/
def sampleSystem (config : ZedisConfig) (events : List SystemEvent) : Option System :=
  (systemCreate config (some fun _ => 0) fun _ => 0).bind fun start => replay systemStep start events

/-- A connection is accepted, and no other. -/
def sampleOpens (fd : Nat) (answers : List WriteAnswer) : List SystemEvent :=
  [.incoming, .accept (some ⟨fd, true, some fun _ => 0, fun _ => 0, answers⟩), .added true, .accept none]

/-- A client sends some bytes, for which `resp_parser_next` is called some times. -/
def sampleSends (fd : Nat) (bytes : Bytes) (calls : Nat) : List SystemEvent :=
  [.ready fd, .read (.data bytes)] ++ List.replicate calls (.parse fun _ => true) ++ [.read .again]

theorem sampleSystem_run {config : ZedisConfig} {events : List SystemEvent} {s : System}
    (returned : sampleSystem config events = some s) : ∃ start,
      systemCreate config (some fun _ => 0) (fun _ => 0) = some start ∧
        Run systemStep Always start events s := by
  obtain ⟨start, made, replayed⟩ := Option.bind_eq_some_iff.mp returned
  exact ⟨start, made, Run.of_replay (fun _ _ _ => trivial) replayed⟩

end Sample

end Zedis.EventLoop

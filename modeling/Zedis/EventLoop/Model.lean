/-
**The running server: event loop, connections and their memory (`src/event_loop.c`, `src/conn.c`,
`server_on_accept` and `server_dispatch_commands` of `src/server.c`).**

The loop waits, and calls the handler of a descriptor that is ready. `server_on_accept` accepts until
the backlog is empty; `conn_on_readable` reads until the socket has nothing left, and after each read
parses and handles the commands that are complete; `conn_on_writable` flushes. A handler is a sequence
of small steps here, so that a statement about every run is one about every point of it: `Phase` says
where the handler stands, and an event what the operating system answers next.

* The handler of a connection is `conn_on_writable` where `armed`, else `conn_on_readable`.
* A connection holds a block of the slab for itself and one for its write buffer. Its parser holds
  nodes, which are blocks of the slab as long as there are any, and else come from `malloc`; nodes go
  to the parser's free list and never back to the slab.
* The kernel gives a descriptor to one connection at a time.
-/

import Zedis.Connection.Reader
import Zedis.Resp.Nodes
import Zedis.Server.Reading

namespace Zedis.EventLoop

open Zedis.Lib Zedis.Arena Zedis.Resp Zedis.Connection Zedis.Slab Zedis.Server

/-- `ZEDIS_MAX_FDS`. -/
def zedisMaxFds : Nat := 4096

/-- `sizeof(resp_node_t)`. -/
def respNodeSize : Nat := 72

/-- What is registered for a descriptor. -/
inductive Handler
  | connOnReadable
  | connOnWritable
deriving DecidableEq, Repr

/-- Where the loop stands: it waits for events; `server_on_accept` is before `accept`, or before
`event_loop_add`; `conn_on_readable` is before `read`, or before `resp_parser_next`. -/
inductive Phase
  | waiting
  | accepting
  | registering (fd : Nat)
  | reading (fd : Nat)
  | dispatching (fd : Nat)
deriving DecidableEq, Repr

/-- The blocks that a connection holds, and the nodes of its parser. -/
structure ConnMemory where
  conn : Nat
  writeBuf : Nat
  nodes : NodePool

/-- A server with its slab and its event loop; `memory` is by the descriptor of a connection, and
`registered` says that a descriptor has a handler. -/
structure System where
  server : ZedisServer
  slab : ZedisSlab
  maxConnections : Nat
  connCount : Nat
  registered : Nat → Bool
  memory : Nat → ConnMemory
  phase : Phase

/-- What is registered for a connection. -/
def System.handlerOf (s : System) (fd : Nat) : Option Handler :=
  if s.registered fd then
    (connOf s.server fd).map fun conn => if conn.armed then .connOnWritable else .connOnReadable
  else none

/-- The parser's nodes of a new connection. -/
def newNodes : NodePool := ⟨fun _ => zeroNode, none, 0⟩

/-- `zedis_create`. -/
def systemCreate (config : ZedisConfig) (mapped : Option (Nat → UInt8)) (stack : Nat → UInt8) :
    Option System :=
  (zedisArenaInit config.arenaSize).bind fun arena =>
  (zedisSlabInit arena (config.maxConnections * 32 % sizeMod) (config.maxConnections * 8 % sizeMod)
    (config.maxConnections * 2 % sizeMod) ((config.maxConnections * 2 + 64) % sizeMod)).bind
      fun (slab, _) =>
  (zedisCreate config mapped stack).map fun server =>
    ⟨server, slab, config.maxConnections, 0, fun _ => false, fun _ => ⟨0, 0, newNodes⟩, .waiting⟩

/-! ### Connections -/

/-- A connection that `accept` returns: its descriptor, whether `set_nonblocking` succeeds, the buffer
that `malloc` gives to its parser, what its write buffer holds, and the answers of its socket. -/
structure Arrival where
  fd : Nat
  nonblocking : Bool
  buffer : Option (Nat → UInt8)
  writeBuf : Nat → UInt8
  answers : List WriteAnswer

/-- `conn_create`: whether there is a new connection. Its write buffer is its own here; `recordedLoop` is the
event loop with the bytes that it shares. -/
def createConn (s : System) (arrival : Arrival) : Bool × System :=
  match zedisSlabAlloc s.slab (slabClass slab512) with
  | (none, slab) => (false, { s with slab := slab })
  | (some conn, slab) =>
    match respParserInitEx (fun _ => arrival.buffer) (64 * 1024) with
    | none => (false, { s with slab := zedisSlabFree slab (some conn) (slabClass slab512) })
    | some parser =>
      match zedisSlabAlloc slab zedisConnWriteSize with
      | (none, slab) => (false, { s with slab := zedisSlabFree slab (some conn) (slabClass slab512) })
      | (some writeBuf, slab) =>
        (true, { s with
          server := { s.server with
            conns := connCreate arrival.fd parser arrival.writeBuf arrival.answers :: s.server.conns }
          slab := slab
          connCount := s.connCount + 1
          memory := Function.update s.memory arrival.fd ⟨conn, writeBuf, newNodes⟩ })

/-- `conn_destroy`, where `server` is what it leaves of the server: the connection is no longer counted
nor registered, and its two blocks are free. The nodes of its parser are not. -/
def connFreed (s : System) (server : ZedisServer) (fd : Nat) : System :=
  { s with
    server := server
    slab := zedisSlabFree
      (zedisSlabFree s.slab (some (s.memory fd).writeBuf) zedisConnWriteSize)
      (some (s.memory fd).conn) (slabClass slab512)
    connCount := if s.connCount > 0 then s.connCount - 1 else s.connCount
    registered := Function.update s.registered fd false
    phase := .waiting }

/-- `conn_destroy`. -/
def destroyConn (s : System) (fd : Nat) : System := connFreed s (Server.connDestroy s.server fd) fd

/-- The system with a connection changed. -/
def System.setConn (s : System) (fd : Nat) (change : Conn → Conn) : System :=
  { s with server := { s.server with conns := changeConn s.server.conns fd change } }

/-- The system with the nodes of a parser changed. -/
def System.setNodes (s : System) (fd : Nat) (nodes : NodePool) : System :=
  { s with memory := Function.update s.memory fd { s.memory fd with nodes := nodes } }

/-! ### Commands -/

/-- The slab after some requests for a node. -/
def takeNodes (slab : ZedisSlab) : Nat → ZedisSlab
  | 0 => slab
  | n + 1 => (zedisSlabAlloc (takeNodes slab n) respNodeSize).2

/-- Whether a request for a node is granted, `asked` being the first one since the slab was `slab`: by
the slab, or else by `malloc`. -/
def grants (slab : ZedisSlab) (asked : Nat) (malloc : Nat → Bool) (request : Nat) : Bool :=
  (zedisSlabAlloc (takeNodes slab (request - asked)) respNodeSize).1.isSome || malloc request

/-- What follows a parsed command in `server_dispatch_commands`. -/
def handleParsed (s : System) (fd : Nat) (buf : Nat → UInt8) (nodes : NodePool) (out : RespValueT) :
    Option System :=
  (readValue nodes buf out).bind fun cmd =>
    (dispatchCommand fd s.server cmd).bind fun (server, destroyed) =>
      -- The release that comes before `conn_destroy` changes the parser's free list only.
      if destroyed then some (connFreed s server fd)
      else (respValueRelease nodes out).map fun nodes => { s with server := server }.setNodes fd nodes

/-- The system after a call of `resp_parser_next`, which leaves a parser and its nodes. -/
def System.parsed (s : System) (fd : Nat) (parser : RespParser) (nodes : NodePool) : System :=
  ({ s with
    slab := takeNodes s.slab (nodes.asked - (s.memory fd).nodes.asked) }.setNodes fd nodes).setConn fd
      fun conn => { conn with parser := parser }

/-- One round of `server_dispatch_commands`. -/
def dispatchRound (s : System) (fd : Nat) (conn : Conn) (malloc : Nat → Bool) : Option System :=
  let nodes := (s.memory fd).nodes
  (nextNodes (grants s.slab nodes.asked malloc) conn.parser nodes).bind fun (verdict, parser, nodes) =>
    let s := s.parsed fd parser nodes
    match verdict with
    | .needMore => some { s with phase := .reading fd }
    | .error => some (connFreed s (protocolError fd s.server) fd)
    | .ok out => handleParsed s fd parser.buf nodes out

/-! ### Steps -/

/-- An answer to `read`. -/
inductive ReadResult
  | again
  | fails
  | closes
  | data (bytes : Bytes)
deriving DecidableEq, Repr

/-- What happens next: the listening socket is ready; `accept` returns a connection, or none; whether
`epoll_ctl` succeeds; the socket of a connection is ready; what `read` returns; the next call of
`resp_parser_next`, and which requests of it `malloc` would grant. -/
inductive SystemEvent
  | incoming
  | accept (arrival : Option Arrival)
  | added (ok : Bool)
  | ready (fd : Nat)
  | read (answer : ReadResult)
  | parse (malloc : Nat → Bool)

/-- The loop of `server_on_accept`, after `accept`. -/
def acceptStep (s : System) : Option Arrival → Option System
  | none => some { s with phase := .waiting }
  | some arrival =>
    if connected s.server arrival.fd then none
    else if arrival.nonblocking = false then some s
    else
      match createConn s arrival with
      | (true, s) => some { s with phase := .registering arrival.fd }
      | (false, s) => some s

/-- The end of the loop of `server_on_accept`: `event_loop_add`. -/
def addStep (s : System) (fd : Nat) (ok : Bool) : System :=
  if fd < zedisMaxFds ∧ ok = true then
    { s with registered := Function.update s.registered fd true, phase := .accepting }
  else { destroyConn s fd with phase := .accepting }

/-- The handler of a connection is called: `conn_on_writable`, or the start of `conn_on_readable`. -/
def readyStep (s : System) (fd : Nat) (conn : Conn) : System :=
  if conn.armed then
    let (destroyed, flushed) := connOnWritable conn
    let s := s.setConn fd fun _ => flushed
    if destroyed then destroyConn s fd else s
  else { s with phase := .reading fd }

/-- The loop of `conn_on_readable`, up to `server_dispatch_commands`. -/
def readStep (s : System) (fd : Nat) (conn : Conn) (answer : ReadResult) : Option System :=
  if respParserSpace conn.parser = 0 then some (destroyConn s fd)
  else
    match answer with
    | .again => some { s with phase := .waiting }
    | .fails => some (destroyConn s fd)
    | .closes => some (destroyConn s fd)
    | .data bytes =>
      if bytes = [] ∨ respParserSpace conn.parser < bytes.length then none
      else some { s.setConn fd (fun conn => { conn with parser := appendBytes conn.parser bytes }) with
        phase := .dispatching fd }

/-- The state an event leaves; `none` for one that cannot happen. -/
def systemStep (s : System) : SystemEvent → Option System
  | .incoming =>
    match s.phase with
    | .waiting =>
      some { s with phase := if s.connCount ≥ s.maxConnections then .waiting else .accepting }
    | _ => none
  | .accept arrival =>
    match s.phase with
    | .accepting => acceptStep s arrival
    | _ => none
  | .added ok =>
    match s.phase with
    | .registering fd => some (addStep s fd ok)
    | _ => none
  | .ready fd =>
    match s.phase with
    | .waiting => if s.registered fd then (connOf s.server fd).map (readyStep s fd) else none
    | _ => none
  | .read answer =>
    match s.phase with
    | .reading fd => (connOf s.server fd).bind fun conn => readStep s fd conn answer
    | _ => none
  | .parse malloc =>
    match s.phase with
    | .dispatching fd => (connOf s.server fd).bind fun conn => dispatchRound s fd conn malloc
    | _ => none

end Zedis.EventLoop

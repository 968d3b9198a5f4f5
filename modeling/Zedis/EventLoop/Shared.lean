/-
**The event loop with the shared bytes.**

`recordStep` is a step of the event loop that records the commands where they are handed to
`server_handle_command`; what does so, and what answers a protocol error, are parameters. With those of
the model it is `systemStep` (`recordStep_eq`).

`recordedLoop` takes them from the server with the shared bytes. Its inputs are the events, each with the
connection whose write buffer is the last block, and the changes of the bytes that a write buffer shares:
the link word of the next block is written, or the first entry of the key-value table. `KeepsOwn`: no
append of an event ends beyond the own bytes of a write buffer. While this is so no write buffer is full
beyond them (`LoopInv`), and the loop is as it is modelled (`recordedLoop_cases`).
-/

import Zedis.EventLoop.Leaks
import Zedis.Server.Shared

namespace Zedis.EventLoop

open Zedis.Lib Zedis.Resp Zedis.Connection Zedis.Slab Zedis.Server

/-! ### The commands that are handled -/

/-- The commands that were handled, each with its connection. -/
abbrev Record := List (Nat × RespValue Bytes)

section Record

variable (dispatch : Nat → ZedisServer → RespValue Bytes → Option (ZedisServer × Bool))
  (protest : Nat → ZedisServer → ZedisServer)

/-- What follows a parsed command, which is recorded when it is dispatched. -/
def recordParsed (s : System) (fd : Nat) (buf : Nat → UInt8) (nodes : NodePool) (out : RespValueT) :
    Option (System × Record) :=
  (readValue nodes buf out).bind fun cmd =>
    (dispatch fd s.server cmd).bind fun (server, destroyed) =>
      if destroyed then some (connFreed s server fd, [(fd, cmd)])
      else (respValueRelease nodes out).map fun nodes =>
        ({ s with server := server }.setNodes fd nodes, [(fd, cmd)])

/-- One round of `server_dispatch_commands`, with its record. -/
def recordRound (s : System) (fd : Nat) (conn : Conn) (malloc : Nat → Bool) : Option (System × Record) :=
  let nodes := (s.memory fd).nodes
  (nextNodes (grants s.slab nodes.asked malloc) conn.parser nodes).bind fun (verdict, parser, nodes) =>
    let s := s.parsed fd parser nodes
    match verdict with
    | .needMore => some ({ s with phase := .reading fd }, [])
    | .error => some (connFreed s (protest fd s.server) fd, [])
    | .ok out => recordParsed dispatch s fd parser.buf nodes out

/-- The state an event leaves, and the commands that it handles. -/
def recordStep (s : System) : SystemEvent → Option (System × Record)
  | .parse malloc =>
    match s.phase with
    | .dispatching fd =>
      (connOf s.server fd).bind fun conn => recordRound dispatch protest s fd conn malloc
    | _ => none
  | event => (systemStep s event).map fun next => (next, [])

end Record

/-- The command at the front of what a round of `server_dispatch_commands` reads. -/
def nextCommand (s : System) (fd : Nat) (malloc : Nat → Bool) (conn : Conn) : Option (RespValue Bytes) :=
  (nextNodes (grants s.slab (s.memory fd).nodes.asked malloc) conn.parser (s.memory fd).nodes).bind
    fun (verdict, parser, nodes) =>
      match verdict with
      | .ok out => readValue nodes parser.buf out
      | _ => none

/-- The command that an event reads, and its connection. -/
def commandAt (s : System) : SystemEvent → Option (Nat × RespValue Bytes)
  | .parse malloc =>
    match s.phase with
    | .dispatching fd => ((connOf s.server fd).bind (nextCommand s fd malloc)).map fun cmd => (fd, cmd)
    | _ => none
  | _ => none

section Recorded

variable {s : System} {fd : Nat} {conn : Conn} {malloc : Nat → Bool}

/-- A round leaves what it leaves in the model, and has handled the command that it read. -/
theorem recordRound_eq (s : System) (fd : Nat) (conn : Conn) (malloc : Nat → Bool) :
    recordRound dispatchCommand protocolError s fd conn malloc =
      (dispatchRound s fd conn malloc).map fun next =>
        (next, (nextCommand s fd malloc conn).toList.map fun cmd => (fd, cmd)) := by
  unfold recordRound dispatchRound nextCommand
  dsimp only
  cases nextNodes (grants s.slab (s.memory fd).nodes.asked malloc) conn.parser (s.memory fd).nodes with
  | none => rfl
  | some result =>
    obtain ⟨verdict, parser, nodes⟩ := result
    cases verdict with
    | needMore => rfl
    | error => rfl
    | ok out =>
      simp only [Option.bind_some, recordParsed, handleParsed]
      cases readValue nodes parser.buf out with
      | none => rfl
      | some cmd =>
        simp only [Option.bind_some]
        cases dispatchCommand fd (s.parsed fd parser nodes).server cmd with
        | none => rfl
        | some dispatched =>
          obtain ⟨server, destroyed⟩ := dispatched
          simp only [Option.bind_some]
          cases destroyed with
          | true => rfl
          | false =>
            rw [if_neg Bool.false_ne_true, if_neg Bool.false_ne_true, Option.map_map]
            rfl

/-- **The record does not change what happens**, and holds the command that was read. -/
theorem recordStep_eq (s : System) (event : SystemEvent) :
    recordStep dispatchCommand protocolError s event =
      (systemStep s event).map fun next => (next, (commandAt s event).toList) := by
  cases event with
  | parse malloc =>
    cases phase : s.phase with
    | dispatching fd =>
      cases found : connOf s.server fd with
      | none => simp only [recordStep, systemStep, phase, found, Option.bind_none, Option.map_none]
      | some conn =>
        simp only [recordStep, systemStep, commandAt, phase, found, Option.bind_some,
          recordRound_eq]
        cases nextCommand s fd malloc conn with
        | none => rfl
        | some cmd => rfl
    | _ => simp only [recordStep, systemStep, phase, Option.map_none]
  | _ => rfl

/-- **What a call of `resp_parser_next` says of the unread bytes.** -/
theorem nextNodes_decodes (inv : SystemInv s) (found : connOf s.server fd = some conn)
    {malloc : Nat → Bool} {said : Verdict RespValueT} {parser : RespParser} {nodes : NodePool}
    (runs : nextNodes (grants s.slab (s.memory fd).nodes.asked malloc) conn.parser (s.memory fd).nodes =
      some (said, parser, nodes)) :
    (said = .needMore → decode (unread conn.parser) = some .needMore ∧
        unread parser = unread conn.parser) ∧
      ∀ out, said = .ok out → ∃ cmd, readValue nodes parser.buf out = some cmd ∧
        decode (unread conn.parser) = some (.ok (cmd, unread parser)) := by
  obtain ⟨member, isFd⟩ := connOf_spec found
  have ok : ParserOk conn.parser := inv.parsers _ (List.mem_map_of_mem member)
  obtain ⟨free, start⟩ := inv.nodes fd (isFd ▸ List.mem_map_of_mem member)
  obtain ⟨verdict, after, told, -, decoded, waits⟩ := respParserNext_spec ok.valid
  obtain ⟨said', last, nodes', again, follows, isAfter⟩ :=
    nextNodes_follows (grants s.slab (s.memory fd).nodes.asked malloc) start told
  cases runs.symm.trans again
  constructor
  · rintro rfl
    obtain rfl := isAfter (Or.inr nofun)
    cases follows with
    | needMore => exact ⟨decoded, waits rfl⟩
  · rintro out rfl
    obtain rfl := isAfter (Or.inr nofun)
    cases follows with
    | ok owns held => exact ⟨_, readValue_of_valueAt parser.buf owns.length_used held, decoded⟩

/-- Rounds that dispatch and protest alike are alike. -/
theorem recordRound_congr
    {dispatch dispatch' : Nat → ZedisServer → RespValue Bytes → Option (ZedisServer × Bool)}
    {protest protest' : Nat → ZedisServer → ZedisServer}
    (protests : ∀ parser nodes, nextNodes (grants s.slab (s.memory fd).nodes.asked malloc) conn.parser
        (s.memory fd).nodes = some (.error, parser, nodes) →
      protest fd (s.parsed fd parser nodes).server = protest' fd (s.parsed fd parser nodes).server)
    (dispatches : ∀ out parser nodes cmd, nextNodes (grants s.slab (s.memory fd).nodes.asked malloc)
        conn.parser (s.memory fd).nodes = some (.ok out, parser, nodes) →
      readValue nodes parser.buf out = some cmd →
      dispatch fd (s.parsed fd parser nodes).server cmd =
        dispatch' fd (s.parsed fd parser nodes).server cmd) :
    recordRound dispatch protest s fd conn malloc = recordRound dispatch' protest' s fd conn malloc := by
  unfold recordRound
  dsimp only
  cases runs : nextNodes (grants s.slab (s.memory fd).nodes.asked malloc) conn.parser
      (s.memory fd).nodes with
  | none => rfl
  | some result =>
    obtain ⟨verdict, parser, nodes⟩ := result
    cases verdict with
    | needMore => rfl
    | error => simp only [Option.bind_some, protests parser nodes runs]
    | ok out =>
      simp only [Option.bind_some, recordParsed]
      cases read : readValue nodes parser.buf out with
      | none => rfl
      | some cmd => simp only [Option.bind_some, dispatches out parser nodes cmd runs read]

end Recorded

/-! ### The loop with the shared bytes -/

/-- What `server_dispatch_commands` does with a command, with the shared bytes. -/
def sharedDispatch (last : Option Nat) (fd : Nat) (server : ZedisServer) (cmd : RespValue Bytes) :
    Option (ZedisServer × Bool) :=
  (sharedHandle last server fd cmd).map fun (closed, server) =>
    if closed ≠ 0 then (server, true)
    else if (connOf server fd).any Conn.closed then (connDestroy server fd, true)
    else (server, false)

/-- What it does after a protocol error. -/
def sharedProtest (last : Option Nat) (fd : Nat) (server : ZedisServer) : ZedisServer :=
  connDestroy (sharedWrite last server (protocolCall fd)) fd

/-- The state an event leaves, with the shared bytes, and the commands that it handles. -/
def sharedLoop (last : Option Nat) (s : System) : SystemEvent → Option (System × Record)
  | .ready fd =>
    if pendingBeyond last s.server fd then
      (systemStep { s with server := loadShared s.server fd } (.ready fd)).map fun next =>
        ({ next with server := saveShared next.server fd }, [])
    else (systemStep s (.ready fd)).map fun next => (next, [])
  | event => recordStep (sharedDispatch last) (sharedProtest last) s event

/-- What happens next: an event, while `last` has the last write buffer; or the bytes that the write buffer
of a connection shares are written. -/
inductive LoopInput
  | event (last : Option Nat) (event : SystemEvent)
  | shared (fd : Nat) (bytes : Bytes)

/-- The state an input leaves, and the commands that it handles. -/
def recordedLoop (s : System) : LoopInput → Option (System × Record)
  | .event last event => sharedLoop last s event
  | .shared fd bytes => some (s.setConn fd (withShared bytes), [])

/-- The state an input leaves. -/
def loopStep (s : System) (input : LoopInput) : Option System := (recordedLoop s input).map Prod.fst

/-- The commands that an input handles. -/
def executed (s : System) (input : LoopInput) : Record :=
  ((recordedLoop s input).map Prod.snd).getD []

/-- **An input keeps to the own bytes of the write buffers**: no append that an event makes ends beyond
them. -/
def KeepsOwn (s : System) : LoopInput → Prop
  | .event _ event => ∀ next, systemStep s event = some next → ∀ conn ∈ s.server.conns,
      spillsIn s.server.stack (callsSince s.server next.server) conn = false
  | .shared _ _ => True

instance (s : System) (input : LoopInput) : Decidable (KeepsOwn s input) :=
  match input with
  | .event _ event =>
    inferInstanceAs (Decidable (∀ next ∈ systemStep s event, ∀ conn ∈ s.server.conns,
      spillsIn s.server.stack (callsSince s.server next.server) conn = false))
  | .shared _ _ => .isTrue trivial

/-! ### Within the own bytes -/

section Own

variable {s next : System} {fd : Nat} {conn : Conn} {malloc : Nat → Bool} {last : Option Nat}

/-- What a call that keeps to the own bytes leaves is within them. -/
theorem inside_receive {stack : Nat → UInt8} {call : QueueCall} {calls : List QueueCall}
    (inside : Inside conn) (own : spillsIn stack (call :: calls) conn = false) :
    Inside (receive stack conn call) := by
  unfold receive
  split
  · rename_i isFd
    rw [spillsIn, isFd, beq_self_eq_true, Bool.true_and, Bool.or_eq_false_iff, spills,
      Bool.and_eq_false_iff, Bool.and_eq_false_iff, Bool.not_eq_false', decide_eq_false_iff_not,
      decide_eq_false_iff_not] at own
    rcases own.1 with (closed | short) | refused
    · rw [connQueueWrite, if_pos closed]
      exact inside
    · have longer := connQueueWrite_writeLen conn (call.data stack)
      unfold Inside
      change (connQueueWrite conn (call.data stack)).2.writeLen + 8 ≤ 4096
      change ¬ 4088 < conn.writeLen + (call.data stack).length at short
      omega
    · -- nothing is appended
      by_cases closed : conn.closed = true
      · rw [connQueueWrite, if_pos closed]
        exact inside
      · rw [connQueueWrite, if_neg closed, writeBufAppend, if_neg closed,
          if_pos (Nat.not_le.mp refused)]
        exact inside
  · exact inside

/-- What some calls that keep to the own bytes leave is within them. -/
theorem inside_afterCalls (stack : Nat → UInt8) (calls : List QueueCall) : ∀ {conn : Conn}, Inside conn →
    spillsIn stack calls conn = false → Inside (afterCalls stack calls conn) := by
  induction calls with
  | nil => exact fun inside _ => inside
  | cons call calls ih =>
    intro conn inside own
    refine ih (inside_receive inside own) ?_
    rw [spillsIn, Bool.or_eq_false_iff] at own
    exact own.2

/-- What was parsed does not matter to the calls. -/
theorem spillsIn_parsed {calls : List QueueCall}
    (own : ∀ conn ∈ s.server.conns, spillsIn s.server.stack calls conn = false) (fd : Nat)
    (parser : RespParser) (nodes : NodePool) :
    ∀ conn ∈ (s.parsed fd parser nodes).server.conns, spillsIn s.server.stack calls conn = false :=
  forall_changeConn (fun old listed _ => (spillsIn_withReader parser old.subscribeChannel old.subscribed
    s.server.stack calls old).trans (own old listed)) own

/-- **A command whose calls keep to the own bytes** leaves the write buffers within them. -/
theorem inside_dispatched {server after : ZedisServer} {cmd : RespValue Bytes} {destroyed : Bool}
    (all : ∀ conn ∈ server.conns, Inside conn)
    (ends : dispatchCommand fd server cmd = some (after, destroyed))
    (own : ∀ conn ∈ server.conns, spillsIn server.stack (callsSince server after) conn = false) :
    ∀ conn ∈ after.conns, Inside conn := by
  obtain ⟨rc, handled, runs, isAfter⟩ := dispatchCommand_eq_some ends
  have calls : callsSince server after = callsSince server handled := by
    rcases isAfter with rfl | rfl
    · rfl
    · rfl
  have here : ∀ conn ∈ handled.conns, Inside conn := by
    rcases serverHandleCommand_conns runs with ⟨-, -, rfl⟩ | ⟨-, -, made, sent, -⟩
    · exact forall_connDestroy all fd
    · have since : callsSince server handled = made := by
        rw [callsSince, sent.calls, List.drop_left]
      rw [calls, since] at own
      intro conn member
      rw [sent.conns] at member
      obtain ⟨old, listed, rfl⟩ := List.mem_map.mp member
      refine inside_afterCalls server.stack made ?_ (spillsIn_subscribing own fd cmd old listed)
      unfold subscribing at listed
      split at listed
      · obtain ⟨before, present, ⟨-, rfl⟩ | ⟨-, rfl⟩⟩ := mem_changeConn listed
        · exact all before present
        · exact all _ present
      · exact all old listed
  rcases isAfter with rfl | rfl
  · exact here
  · exact forall_connDestroy here fd

theorem Round.inside_own (round : Round s fd conn malloc next) (inv : SystemInv s)
    (all : ∀ conn ∈ s.server.conns, Inside conn) (own : ∀ conn ∈ s.server.conns,
      spillsIn s.server.stack (callsSince s.server next.server) conn = false) :
    ∀ conn ∈ next.server.conns, Inside conn := by
  have parsed : ∀ parser nodes, ∀ conn ∈ (s.parsed fd parser nodes).server.conns, Inside conn :=
    fun parser nodes => forall_changeConn (fun other listed _ => all other listed) all
  cases round with
  | waits parser nodes => exact parsed parser nodes
  | protests parser nodes =>
    exact fun other listed => parsed parser nodes other
      (mem_protocolError (inv.parsed_server fd parser nodes) listed)
  | destroys parser nodes _ _ _ _ _ _ ends =>
    exact inside_dispatched (parsed parser nodes) ends (spillsIn_parsed own fd parser nodes)
  | handles parser nodes _ _ _ _ _ _ _ ends =>
    exact inside_dispatched (parsed parser nodes) ends (spillsIn_parsed own fd parser nodes)

/-- A command whose calls keep to the own bytes is dispatched as in the model. -/
theorem sharedDispatch_eq {server after : ZedisServer} {cmd : RespValue Bytes} {destroyed : Bool}
    (ends : dispatchCommand fd server cmd = some (after, destroyed))
    (own : ∀ conn ∈ server.conns, spillsIn server.stack (callsSince server after) conn = false)
    (last : Option Nat) : sharedDispatch last fd server cmd = dispatchCommand fd server cmd := by
  obtain ⟨rc, handled, runs, isAfter⟩ := dispatchCommand_eq_some ends
  have owned : Owned server (.command fd cmd) := by
    intro rc' after' runs'
    cases runs.symm.trans runs'
    rcases isAfter with rfl | rfl
    · exact own
    · exact own
  unfold sharedDispatch dispatchCommand
  rw [sharedHandle_eq owned last]

theorem sharedProtest_eq {server : ZedisServer}
    (own : ∀ conn ∈ server.conns, spillsIn server.stack [protocolCall fd] conn = false)
    (last : Option Nat) : sharedProtest last fd server = protocolError fd server := by
  have plain : sharedWrite last server (protocolCall fd) = queueWrite server (protocolCall fd) :=
    foldl_sharedWrite last [protocolCall fd] server own
  rw [sharedProtest, plain, protocolError_eq]

/-- **A round whose appends keep to the own bytes is as it is modelled.** -/
theorem Round.shared (round : Round s fd conn malloc next) (inv : SystemInv s)
    (found : connOf s.server fd = some conn) (own : ∀ conn ∈ s.server.conns,
      spillsIn s.server.stack (callsSince s.server next.server) conn = false) (last : Option Nat) :
    recordRound (sharedDispatch last) (sharedProtest last) s fd conn malloc =
      recordRound dispatchCommand protocolError s fd conn malloc := by
  refine recordRound_congr (fun parser nodes errs => ?_) fun out parser nodes cmd runs read => ?_
  · cases round with
    | waits _ _ runs => cases errs.symm.trans runs
    | protests _ _ runs =>
      cases errs.symm.trans runs
      refine sharedProtest_eq (spillsIn_parsed ?_ fd parser nodes) last
      have one : callsSince s.server (protocolError fd (s.parsed fd parser nodes).server) =
          [protocolCall fd] := callsSince_queueWrite (s.parsed fd parser nodes).server (protocolCall fd)
      rw [← one]
      exact own
    | destroys _ _ _ _ _ _ runs => cases errs.symm.trans runs
    | handles _ _ _ _ _ _ _ runs => cases errs.symm.trans runs
  · obtain ⟨cmd', read', decoded⟩ := (nextNodes_decodes inv found runs).2 out rfl
    cases read.symm.trans read'
    cases round with
    | waits _ _ runs' => cases runs.symm.trans runs'
    | protests _ _ runs' => cases runs.symm.trans runs'
    | destroys _ _ _ _ _ _ runs' decoded' ends =>
      cases runs.symm.trans runs'
      cases decoded.symm.trans decoded'
      exact sharedDispatch_eq ends (spillsIn_parsed own fd parser nodes) last
    | handles _ _ _ _ _ _ _ runs' decoded' ends =>
      cases runs.symm.trans runs'
      cases decoded.symm.trans decoded'
      exact sharedDispatch_eq ends (spillsIn_parsed own fd parser nodes) last

/-- **What holds in every run that keeps to the own bytes.** -/
structure LoopInv (s : System) : Prop where
  system : SystemInv s
  inside : ∀ conn ∈ s.server.conns, Inside conn

/-- **An event that keeps to the own bytes is as it is modelled.** -/
theorem sharedLoop_eq (inv : LoopInv s) {event : SystemEvent} (own : KeepsOwn s (.event last event)) :
    sharedLoop last s event = (systemStep s event).map fun next => (next, (commandAt s event).toList) := by
  cases event with
  | ready fd =>
    refine if_neg fun beyond => ?_
    rw [pendingBeyond, Bool.and_eq_true, Option.any_eq_true] at beyond
    obtain ⟨-, conn, found, long⟩ := beyond
    have inside : conn.writeLen + 8 ≤ 4096 := inv.inside conn (connOf_spec found).1
    have long : 4088 < conn.writeLen := of_decide_eq_true long
    omega
  | parse malloc =>
    rw [← recordStep_eq]
    change recordStep (sharedDispatch last) (sharedProtest last) s (.parse malloc) = _
    cases phase : s.phase with
    | dispatching fd =>
      cases found : connOf s.server fd with
      | none => simp only [recordStep, phase, found, Option.bind_none]
      | some conn =>
        obtain ⟨next, taken, round, -⟩ := parse_returns inv.system phase found malloc
        simp only [recordStep, phase, found, Option.bind_some]
        exact round.shared inv.system found (own next taken) last
    | _ => simp only [recordStep, phase]
  | _ => rfl

/-- **What an input can do**: an event of the model, or a change of the shared bytes. -/
theorem recordedLoop_cases (inv : LoopInv s) {input : LoopInput} {record : Record} (own : KeepsOwn s input)
    (taken : recordedLoop s input = some (next, record)) :
    (∃ last event, input = .event last event ∧ systemStep s event = some next ∧
        record = (commandAt s event).toList) ∨
      ∃ fd bytes, input = .shared fd bytes ∧ next = s.setConn fd (withShared bytes) ∧ record = [] := by
  cases input with
  | event last event =>
    change sharedLoop last s event = some (next, record) at taken
    rw [sharedLoop_eq inv own] at taken
    obtain ⟨after, stepped, same⟩ := Option.map_eq_some_iff.mp taken
    cases same
    exact Or.inl ⟨last, event, rfl, stepped, rfl⟩
  | shared fd bytes =>
    cases taken
    exact Or.inr ⟨fd, bytes, rfl, rfl, rfl⟩

theorem LoopInv.shared (inv : LoopInv s) (fd : Nat) (bytes : Bytes) :
    LoopInv (s.setConn fd (withShared bytes)) := by
  refine ⟨inv.system.setServer ?_ (readers_changeConn fun _ _ _ => ⟨rfl, rfl⟩),
    forall_changeConn (fun conn member _ => inv.inside conn member) inv.inside⟩
  refine inv.system.server.changeConn fd _ (fun _ _ same => same) fun conn member _ => ?_
  have counted := inv.system.server.counted conn member
  exact ⟨counted.sent, counted.room⟩

/-- **Every input that keeps to the own bytes keeps the invariant.** -/
theorem LoopInv.step (inv : LoopInv s) {input : LoopInput} {record : Record} (own : KeepsOwn s input)
    (taken : recordedLoop s input = some (next, record)) : LoopInv next := by
  rcases recordedLoop_cases inv own taken with
    ⟨last, event, rfl, stepped, -⟩ | ⟨fd, bytes, -, rfl, -⟩
  · refine ⟨inv.system.step stepped, (systemStep_stepped inv.system stepped).inside_of_round inv.inside ?_⟩
    intro fd conn malloc _ _ _ round
    exact round.inside_own inv.system inv.inside (own next stepped)
  · exact inv.shared fd bytes

end Own

end Zedis.EventLoop

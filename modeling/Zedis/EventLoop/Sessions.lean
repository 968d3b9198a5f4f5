/-
**From the bytes of a client to the stores.**

`Sessions` is the history of the connections that are open: the bytes that were read from each since it
was opened, and the commands that were handed to `server_handle_command` for it. `InStep`: the commands are
those at the front of the bytes, in their order, and what the parser has not read is the rest; while the
connection is not being dispatched, no further command is complete. So no command is lost, doubled or
reordered, however the reads cut the stream and whatever the other clients do in between.

`system_serves`: in a run of the whole system, these commands are the requests that the abstract store
serves. It is about runs that keep to the own bytes of the write buffers (`KeepsOwn`): an append that ends
beyond them may change the first entry of the key-value table.
-/

import Zedis.EventLoop.Shared
import Zedis.Lib.Simulation
import Zedis.Server.Refinement

namespace Zedis.EventLoop

open Zedis.Lib Zedis.Resp Zedis.Connection Zedis.Server

/-! ### The history -/

/-- The bytes that were read from each connection since it was opened, the commands that were handled for
it, and the texts that were sent to it. -/
structure Sessions where
  received : Nat → Bytes
  handled : Nat → List (RespValue Bytes)
  sent : Nat → Bytes

/-- The commands of a record that are for a connection. -/
def commandsFor (record : Record) (fd : Nat) : List (RespValue Bytes) :=
  (record.filter fun asked => asked.1 = fd).map Prod.snd

/-- What some texts are for a connection. -/
def addressed (texts : List (Nat × Bytes)) (fd : Nat) : Bytes :=
  texts.flatMap fun text => if text.1 = fd then text.2 else []

/-- The history after an event that leaves `next` and has handled the commands of a record. -/
def Sessions.after (log : Sessions) (s : System) (event : SystemEvent) (next : System)
    (record : Record) : Sessions :=
  match event with
  | .accept (some arrival) =>
    ⟨Function.update log.received arrival.fd [], Function.update log.handled arrival.fd [],
      Function.update log.sent arrival.fd []⟩
  | .read (.data bytes) =>
    match s.phase with
    | .reading fd => { log with received := Function.update log.received fd (log.received fd ++ bytes) }
    | _ => log
  | .parse _ =>
    { log with
      handled := fun fd => log.handled fd ++ commandsFor record fd
      sent := fun fd => log.sent fd ++ addressed (textsSince s.server next.server) fd }
  | _ => log

/-- The system with its history. -/
def tracedStep (traced : System × Sessions) (event : SystemEvent) : Option (System × Sessions) :=
  (recordStep dispatchCommand protocolError traced.1 event).map fun (next, record) =>
    (next, traced.2.after traced.1 event next record)

/-- What a step of the traced system is. -/
theorem tracedStep_eq (traced : System × Sessions) (event : SystemEvent) :
    tracedStep traced event = (systemStep traced.1 event).map fun next =>
      (next, traced.2.after traced.1 event next (commandAt traced.1 event).toList) := by
  rw [tracedStep, recordStep_eq, Option.map_map]
  rfl

/-- The history before the first connection. -/
def noSessions : Sessions := ⟨fun _ => [], fun _ => [], fun _ => []⟩

/-! ### What is handled -/

theorem commandsFor_self (fd : Nat) (cmd : RespValue Bytes) : commandsFor [(fd, cmd)] fd = [cmd] := by
  simp [commandsFor]

theorem commandsFor_of_ne {fd other : Nat} (differs : other ≠ fd) (found : Option (RespValue Bytes)) :
    commandsFor (found.map fun cmd => (fd, cmd)).toList other = [] := by
  cases found with
  | none => rfl
  | some cmd => simp [commandsFor, differs.symm]

section Parsed

variable {s : System} {fd : Nat} {conn : Conn}

variable {malloc : Nat → Bool} (phase : s.phase = .dispatching fd)
  (found : connOf s.server fd = some conn)
include phase found

theorem commandAt_parse :
    commandAt s (.parse malloc) = (nextCommand s fd malloc conn).map fun cmd => (fd, cmd) := by
  simp only [commandAt, phase, found, Option.bind_some]

/-- **A round that parses a command handles it.** -/
theorem commandAt_of_ok (inv : SystemInv s) {out : RespValueT} {last : RespParser} {nodes : NodePool}
    {cmd : RespValue Bytes} {rest : Bytes}
    (runs : nextNodes (grants s.slab (s.memory fd).nodes.asked malloc) conn.parser (s.memory fd).nodes =
      some (.ok out, last, nodes))
    (decoded : decode (unread conn.parser) = some (.ok (cmd, rest))) :
    commandAt s (.parse malloc) = some (fd, cmd) := by
  obtain ⟨cmd', read, decoded'⟩ := (nextNodes_decodes inv found runs).2 out rfl
  cases decoded.symm.trans decoded'
  rw [commandAt_parse phase found, nextCommand, runs]
  exact congrArg (Option.map fun cmd => (fd, cmd)) read

/-- Another round handles none. -/
theorem commandAt_of_other {said : Verdict RespValueT} {last : RespParser} {nodes : NodePool}
    (runs : nextNodes (grants s.slab (s.memory fd).nodes.asked malloc) conn.parser (s.memory fd).nodes =
      some (said, last, nodes)) (notOk : ∀ out, said ≠ .ok out) :
    commandAt s (.parse malloc) = none := by
  rw [commandAt_parse phase found, nextCommand, runs, Option.bind_some]
  cases said with
  | ok out => exact absurd rfl (notOk out)
  | _ => rfl

end Parsed

/-- Only a round of `server_dispatch_commands` handles a command. -/
theorem commandAt_of_no_parse {s : System} {event : SystemEvent}
    (notParse : ∀ malloc, event ≠ .parse malloc) : commandAt s event = none := by
  cases event with
  | parse malloc => exact absurd rfl (notParse malloc)
  | _ => rfl

/-! ### The invariant of the sessions -/

/-- **A connection is attended to**: the handled commands are at the front of the received bytes, and the
unread bytes are the rest; unless it is being dispatched, they hold no further command. -/
structure Attended (log : Sessions) (phase : Phase) (fd : Nat) (parser : RespParser) : Prop where
  takes : Takes decode (log.received fd) (log.handled fd) (unread parser)
  idle : phase ≠ .dispatching fd → decode (unread parser) = some .needMore

/-- Every connection is attended to. -/
def InStep (s : System) (log : Sessions) : Prop :=
  ∀ fd parser, (fd, parser) ∈ readers s.server.conns → Attended log s.phase fd parser

section Sessions

variable {s next : System} {log log' : Sessions} {fd : Nat} {parser : RespParser} {conn : Conn}

/-- A connection whose bytes and commands are not touched. -/
theorem Attended.elsewhere {phase : Phase} (attended : Attended log phase fd parser)
    (received : log'.received fd = log.received fd) (handled : log'.handled fd = log.handled fd)
    (elsewhere : phase ≠ .dispatching fd) (phase' : Phase) : Attended log' phase' fd parser := by
  refine ⟨?_, fun _ => attended.idle elsewhere⟩
  rw [received, handled]
  exact attended.takes

/-- The readers that are left are attended to, if the handler under way was on none of them. -/
theorem InStep.of_subset (inStep : InStep s log) (elsewhere : ∀ fd parser,
      (fd, parser) ∈ readers next.server.conns →
        (fd, parser) ∈ readers s.server.conns ∧ s.phase ≠ .dispatching fd) : InStep next log := by
  intro fd parser member
  obtain ⟨old, notHere⟩ := elsewhere fd parser member
  exact (inStep fd parser old).elsewhere rfl rfl notHere next.phase

/-- The parser of a connection is changed. -/
theorem mem_readers_changeParser {conns : List Conn} {fd' : Nat} (change : RespParser → RespParser)
    (member : (fd', parser) ∈ readers (changeConn conns fd fun conn =>
      { conn with parser := change conn.parser })) :
    (∃ old, (fd, old) ∈ readers conns ∧ fd' = fd ∧ parser = change old) ∨
      fd' ≠ fd ∧ (fd', parser) ∈ readers conns := by
  obtain ⟨after, inside, isReader⟩ := List.mem_map.mp member
  obtain ⟨rfl, rfl⟩ := Prod.mk.inj isReader
  obtain ⟨old, listed, ⟨isFd, rfl⟩ | ⟨differs, rfl⟩⟩ := mem_changeConn inside
  · refine Or.inl ⟨old.parser, ?_, isFd, rfl⟩
    exact List.mem_map.mpr ⟨old, listed, by rw [isFd]⟩
  · exact Or.inr ⟨differs, List.mem_map_of_mem listed⟩

/-- A descriptor has one parser. -/
theorem parser_of_connOf (inv : SystemInv s) (found : connOf s.server fd = some conn)
    (member : (fd, parser) ∈ readers s.server.conns) : parser = conn.parser := by
  obtain ⟨inside, isFd⟩ := connOf_spec found
  obtain ⟨other, inside', isReader⟩ := List.mem_map.mp member
  obtain ⟨isFd', rfl⟩ := Prod.mk.inj isReader
  rw [List.inj_on_of_nodup_map inv.server.fds inside inside' (isFd.trans isFd'.symm)]

/-- The readers after a connection is destroyed. -/
theorem mem_readers_destroy {pairs : List (Nat × RespParser)} {fd' : Nat}
    (member : (fd', parser) ∈ pairs.filter fun reader => reader.1 ≠ fd) :
    (fd', parser) ∈ pairs ∧ fd' ≠ fd := by
  obtain ⟨inside, differs⟩ := List.mem_filter.mp member
  exact ⟨inside, of_decide_eq_true differs⟩

/-- The readers of the other connections after a call of `resp_parser_next`. -/
theorem mem_readers_parsed {fd' : Nat} {nodes : NodePool} {last : RespParser} (differs : fd' ≠ fd)
    (member : (fd', parser) ∈ readers (s.parsed fd last nodes).server.conns) :
    (fd', parser) ∈ readers s.server.conns := by
  rcases mem_readers_changeParser (fun _ => last) member with ⟨-, -, same, -⟩ | ⟨-, old⟩
  · exact absurd same differs
  · exact old

/-- **A round of `server_dispatch_commands`** handles the next command, or there is none. -/
theorem Round.inStep {malloc : Nat → Bool} (round : Round s fd conn malloc next) (inv : SystemInv s)
    (phase : s.phase = .dispatching fd) (found : connOf s.server fd = some conn)
    (inStep : InStep s log) :
    InStep next (log.after s (.parse malloc) next (commandAt s (.parse malloc)).toList) := by
  have shown := @commandAt_parse s fd conn malloc phase found
  -- what happens on the connection does not concern the others
  have others : ∀ fd' parser, fd' ≠ fd → (fd', parser) ∈ readers s.server.conns →
      Attended (log.after s (.parse malloc) next (commandAt s (.parse malloc)).toList) next.phase fd' parser := by
    intro fd' parser differs old
    have elsewhere : s.phase ≠ .dispatching fd' := by
      rw [phase]
      exact fun same => differs (Phase.dispatching.inj same).symm
    refine (inStep fd' parser old).elsewhere ?_ ?_ elsewhere next.phase
    · rfl
    · simp only [Sessions.after, shown, commandsFor_of_ne differs, List.append_nil]
  -- a connection that is destroyed leaves the others
  have destroyed : ∀ {last : RespParser} {nodes : NodePool}, readers next.server.conns =
      (readers (s.parsed fd last nodes).server.conns).filter (fun reader => reader.1 ≠ fd) →
      InStep next (log.after s (.parse malloc) next (commandAt s (.parse malloc)).toList) := by
    intro last nodes filtered fd' parser member
    rw [filtered] at member
    obtain ⟨inside, differs⟩ := mem_readers_destroy member
    exact others fd' parser differs (mem_readers_parsed differs inside)
  -- the connection itself, where it stays
  have own : (fd, conn.parser) ∈ readers s.server.conns := by
    obtain ⟨member, isFd⟩ := connOf_spec found
    exact List.mem_map.mpr ⟨conn, member, by rw [isFd]⟩
  have stays : ∀ {last : RespParser} {nodes : NodePool}, readers next.server.conns =
      readers (s.parsed fd last nodes).server.conns →
      Attended (log.after s (.parse malloc) next (commandAt s (.parse malloc)).toList) next.phase fd last →
      InStep next (log.after s (.parse malloc) next (commandAt s (.parse malloc)).toList) := by
    intro last nodes same attended fd' parser member
    rw [same] at member
    by_cases isFd : fd' = fd
    · rcases mem_readers_changeParser (fun _ => last) member with ⟨-, -, -, rfl⟩ | ⟨differs, -⟩
      · exact isFd ▸ attended
      · exact absurd isFd differs
    · exact others fd' parser isFd (mem_readers_parsed isFd member)
  cases round with
  | waits last nodes runs =>
    obtain ⟨needs, same⟩ := (nextNodes_decodes inv found runs).1 rfl
    have none := commandAt_of_other phase found runs nofun
    refine stays rfl ⟨?_, fun _ => by rw [same]; exact needs⟩
    simp only [Sessions.after, none, Option.toList_none]
    rw [same, show commandsFor [] fd = [] from rfl, List.append_nil]
    exact (inStep fd conn.parser own).takes
  | protests last nodes runs => exact destroyed (protocolError_spec (inv.parsed_server fd last nodes) fd).2
  | destroys last nodes out cmd rest server runs decoded ends =>
    obtain ⟨_, _, ends', -, same⟩ := dispatchCommand_cases (inv.parsed_server fd last nodes) fd cmd
    cases ends.symm.trans ends'
    exact destroyed same
  | handles last nodes released out cmd rest server runs decoded ends releases asked =>
    obtain ⟨_, _, ends', -, same⟩ := dispatchCommand_cases (inv.parsed_server fd last nodes) fd cmd
    cases ends.symm.trans ends'
    have command := commandAt_of_ok phase found inv runs decoded
    obtain ⟨_, -, decoded'⟩ := (nextNodes_decodes inv found runs).2 out rfl
    cases decoded.symm.trans decoded'
    refine stays same ⟨?_, fun elsewhere => absurd phase elsewhere⟩
    simp only [Sessions.after, command, Option.toList_some, commandsFor_self]
    exact (inStep fd conn.parser own).takes.snoc decoded

/-- **A read** appends to the bytes of its connection, and the others are as they were. -/
theorem readStep_inStep {answer : ReadResult} (record : Record) (inStep : InStep s log) (inv : SystemInv s)
    (phase : s.phase = .reading fd) (found : connOf s.server fd = some conn)
    (taken : readStep s fd conn answer = some next) : InStep next (log.after s (.read answer) next record) := by
  have others : ∀ fd' parser, fd' ≠ fd → (fd', parser) ∈ readers s.server.conns →
      Attended (log.after s (.read answer) next record) next.phase fd' parser := by
    intro fd' parser differs old
    refine (inStep fd' parser old).elsewhere ?_ ?_ (by simp [phase]) next.phase
    · cases answer with
      | data bytes =>
        simp only [Sessions.after, phase]
        exact Function.update_of_ne differs _ _
      | _ => rfl
    · cases answer with
      | data bytes => simp only [Sessions.after, phase]
      | _ => rfl
  have destroyed : next = destroyConn s fd → InStep next (log.after s (.read answer) next record) := by
    rintro isNext fd' parser member
    rw [isNext] at member
    change (fd', parser) ∈ readers (connDestroy s.server fd).conns at member
    rw [readers_connDestroy] at member
    obtain ⟨inside, differs⟩ := mem_readers_destroy member
    exact others fd' parser differs inside
  unfold readStep at taken
  split at taken
  · exact destroyed (Option.some.inj taken).symm
  · cases answer with
    | again =>
      cases taken
      exact inStep.of_subset fun fd' parser member => ⟨member, by simp [phase]⟩
    | fails => exact destroyed (Option.some.inj taken).symm
    | closes => exact destroyed (Option.some.inj taken).symm
    | data bytes =>
      obtain ⟨fits, same⟩ := Option.ite_none_left_eq_some.mp taken
      intro fd' parser member
      by_cases isFd : fd' = fd
      · subst isFd
        cases same
        rcases mem_readers_changeParser (fun parser => appendBytes parser bytes) member with
          ⟨old, listed, -, rfl⟩ | ⟨differs, -⟩
        · have ok : ParserOk old := inv.parsers _ listed
          have isOld := parser_of_connOf inv found listed
          have room : bytes.length ≤ respParserSpace old := by
            rw [isOld]
            exact Nat.not_lt.mp fun long => fits (Or.inr long)
          have written := ok.valid.written
          unfold respParserSpace at room
          have appended := (appendBytes_spec ok.valid (show old.wPos + bytes.length ≤ old.bufCap by
            omega)).2
          refine ⟨?_, fun elsewhere => absurd rfl elsewhere⟩
          simp only [Sessions.after, phase]
          rw [appended, Function.update_self]
          exact (inStep fd' old listed).takes.append decode_settled bytes
        · exact absurd rfl differs
      · cases same
        rcases mem_readers_changeParser (fun parser => appendBytes parser bytes) member with
          ⟨-, -, same, -⟩ | ⟨-, old⟩
        · exact absurd same isFd
        · exact others fd' parser isFd old

/-- **Every step keeps every connection attended to.** -/
theorem InStep.step {event : SystemEvent} (inStep : InStep s log) (inv : SystemInv s)
    (taken : systemStep s event = some next) : InStep next (log.after s event next (commandAt s event).toList) := by
  cases event with
  | incoming =>
    rw [systemStep] at taken
    split at taken
    · rename_i phase
      cases taken
      exact inStep.of_subset fun fd parser member => ⟨member, by simp [phase]⟩
    · cases taken
  | accept arrival =>
    rw [systemStep] at taken
    split at taken
    · rename_i phase
      cases arrival with
      | none =>
        cases taken
        exact inStep.of_subset fun fd parser member => ⟨member, by simp [phase]⟩
      | some arrival =>
        obtain ⟨fresh, outcome⟩ := acceptStep_cases taken
        -- the other connections are as they were
        have others : ∀ fd parser, (fd, parser) ∈ readers s.server.conns →
            Attended (log.after s (.accept (some arrival)) next []) next.phase fd parser := by
          intro fd parser member
          have listed : fd ∈ s.server.conns.map Conn.fd := by
            rw [fds_eq]
            exact List.mem_map_of_mem member
          have differs : fd ≠ arrival.fd := ne_of_mem_of_not_mem listed fresh
          exact (inStep fd parser member).elsewhere (Function.update_of_ne differs _ _)
            (Function.update_of_ne differs _ _) (by simp [phase]) next.phase
        rcases outcome with ⟨-, rfl⟩ | ⟨buf, conn, writeBuf, -, -, -, -, rfl⟩
        · exact others
        · intro fd parser member
          rcases List.mem_cons.mp member with isNew | old
          · obtain ⟨rfl, rfl⟩ := Prod.mk.inj isNew
            refine ⟨?_, fun _ => rfl⟩
            change Takes decode (Function.update log.received arrival.fd [] arrival.fd)
              (Function.update log.handled arrival.fd [] arrival.fd) []
            rw [Function.update_self, Function.update_self]
            exact .nil []
          · exact others fd parser old
    · cases taken
  | added ok =>
    rw [systemStep] at taken
    split at taken
    · rename_i fd phase
      cases taken
      unfold addStep
      split
      · exact inStep.of_subset fun fd parser member => ⟨member, by simp [phase]⟩
      · refine inStep.of_subset fun fd' parser member => ⟨?_, by simp [phase]⟩
        change (fd', parser) ∈ readers (connDestroy s.server fd).conns at member
        rw [readers_connDestroy] at member
        exact (mem_readers_destroy member).1
    · cases taken
  | ready fd =>
    rw [systemStep] at taken
    split at taken
    · rename_i phase
      obtain ⟨-, taken⟩ := Option.ite_none_right_eq_some.mp taken
      obtain ⟨conn, found, rfl⟩ := Option.map_eq_some_iff.mp taken
      refine inStep.of_subset fun fd' parser member => ⟨?_, by simp [phase]⟩
      unfold readyStep at member
      split at member
      · have flushed : readers (s.setConn fd fun _ => (connOnWritable conn).2).server.conns =
            readers s.server.conns := readers_flushed inv found
        dsimp only at member
        split at member
        · change (fd', parser) ∈ readers
            (connDestroy (s.setConn fd fun _ => (connOnWritable conn).2).server fd).conns at member
          rw [readers_connDestroy, flushed] at member
          exact (mem_readers_destroy member).1
        · exact flushed ▸ member
      · exact member
    · cases taken
  | read answer =>
    rw [systemStep] at taken
    split at taken
    · rename_i fd phase
      obtain ⟨conn, found, taken⟩ := Option.bind_eq_some_iff.mp taken
      exact readStep_inStep _ inStep inv phase found taken
    · cases taken
  | parse malloc =>
    cases systemStep_stepped inv taken with
    | turns _ _ notParse => exact absurd rfl (notParse malloc)
    | round fd conn _ _ phase found round => exact round.inStep inv phase found inStep

end Sessions

/-- A client sends `PING` in two pieces. -/
def samplePing : List SystemEvent :=
  sampleOpens 5 [] ++ sampleSends 5 (ascii "PI") 1 ++ sampleSends 5 (ascii "NG\r\n") 2

/-- **The condition on an input**: it keeps to the own bytes of the write buffers, and the request that it
handles is careful. -/
structure Careful (s : System) (input : LoopInput) : Prop where
  own : KeepsOwn s input
  requests : ∀ asked ∈ executed s input, ∀ request, requestOf asked.2 = some request →
    CarefulRequest s.server request

/-- What is shown of the stores where the commands of a record were handled: each request, its connection,
and the texts that are sent. -/
def shownBy (s : System) (record : Record) (next : System) :
    List ((Nat × Request) × List (Nat × Bytes)) :=
  record.flatMap fun asked =>
    (requestOf asked.2).toList.map fun request => ((asked.1, request), textsSince s.server next.server)

/-- What an input shows of the stores. -/
def exchange (s : System) (input : LoopInput) (next : System) :
    List ((Nat × Request) × List (Nat × Bytes)) := shownBy s (executed s input) next

section Serves

variable {limits : Limits} {s next : System} {store : Store} {fd : Nat} {conn : Conn}

/-- What is no round of `server_dispatch_commands` leaves the stores. -/
theorem Stepped.stays {event : SystemEvent} (stepped : Stepped s event next)
    (notParse : ∀ malloc, event ≠ .parse malloc) : StoresStay s.server next.server := by
  cases stepped with
  | round _ _ malloc => exact absurd rfl (notParse malloc)
  | _ => exact ⟨rfl, rfl, rfl, rfl⟩

/-- **A command that is dispatched is served**, if it is a careful request, and else the stores stay. -/
theorem dispatched_matched (holds : Refines limits s.server store) (inv : SystemInv s)
    {last : RespParser} {nodes : NodePool} {cmd : RespValue Bytes} {server : ZedisServer}
    {destroyed : Bool} (ends : dispatchCommand fd (s.parsed fd last nodes).server cmd =
      some (server, destroyed))
    (careful : ∀ request, requestOf cmd = some request → CarefulRequest s.server request) :
    ∃ store', Behaves (Serves limits) store ((requestOf cmd).toList.map fun request =>
        ((fd, request), textsSince s.server server)) store' ∧ Refines limits server store' := by
  obtain ⟨rc, handled, handles, isAfter⟩ := dispatchCommand_eq_some ends
  obtain ⟨same, calls⟩ : StoresStay handled server ∧ server.calls = handled.calls := by
    rcases isAfter with rfl | rfl
    · exact ⟨⟨rfl, rfl, rfl, rfl⟩, rfl⟩
    · exact ⟨⟨rfl, rfl, rfl, rfl⟩, rfl⟩
  have held : Refines limits (s.parsed fd last nodes).server store := holds.of_same ⟨rfl, rfl, rfl, rfl⟩
  cases made : requestOf cmd with
  | none =>
    have kept := serverHandleCommand_keeps made rc handled handles
    exact ⟨store, .nil store, (held.of_same kept).of_same same⟩
  | some request =>
    have carefulHere : CarefulRequest (s.parsed fd last nodes).server request := by
      cases request with
      | del key => exact careful _ made
      | order side price qty => exact careful _ made
      | _ => trivial
    obtain ⟨after, reply, store', answers, texts, allowed, kept⟩ := answer_serves held
      (inv.parsed_server fd last nodes) fd (inRange64_of_requestOf made) carefulHere
    cases handles.symm.trans ((serverHandleCommand_eq_answer made).trans answers)
    refine ⟨store', .single ⟨reply, allowed, ?_⟩, kept.of_same same⟩
    rw [← texts, textsSince, textsSince, callsSince, callsSince, calls]
    rfl

/-- **Every careful event is matched by the store.** -/
theorem systemStep_matched (holds : Refines limits s.server store) (inv : SystemInv s)
    {event : SystemEvent} (careful : ∀ asked ∈ (commandAt s event).toList, ∀ request,
      requestOf asked.2 = some request → CarefulRequest s.server request)
    (taken : systemStep s event = some next) :
    ∃ store', Behaves (Serves limits) store (shownBy s (commandAt s event).toList next) store' ∧
      Refines limits next.server store' := by
  have stepped := systemStep_stepped inv taken
  by_cases isParse : ∃ malloc, event = .parse malloc
  · obtain ⟨malloc, rfl⟩ := isParse
    cases stepped with
    | turns _ _ notParse => exact absurd rfl (notParse malloc)
    | round fd conn _ _ phase found round =>
      -- a round that handles a command
      have dispatched : ∀ {last : RespParser} {nodes : NodePool} {out : RespValueT}
          {cmd : RespValue Bytes} {rest : Bytes} {server : ZedisServer} {destroyed : Bool},
          nextNodes (grants s.slab (s.memory fd).nodes.asked malloc) conn.parser (s.memory fd).nodes =
            some (.ok out, last, nodes) → decode (unread conn.parser) = some (.ok (cmd, rest)) →
          dispatchCommand fd (s.parsed fd last nodes).server cmd = some (server, destroyed) →
          next.server = server → ∃ store', Behaves (Serves limits) store
            (shownBy s (commandAt s (.parse malloc)).toList next) store' ∧
              Refines limits next.server store' := by
        intro last nodes out cmd rest server destroyed runs decoded ends isServer
        have command := commandAt_of_ok phase found inv runs decoded
        rw [command, Option.toList_some] at careful ⊢
        have matched := dispatched_matched holds inv ends (careful (fd, cmd) List.mem_cons_self)
        rw [shownBy, isServer]
        simpa only [List.flatMap_singleton] using matched
      -- a round that handles none
      have silent : ∀ {said : Verdict RespValueT} {last : RespParser} {nodes : NodePool},
          nextNodes (grants s.slab (s.memory fd).nodes.asked malloc) conn.parser (s.memory fd).nodes =
            some (said, last, nodes) → (∀ out, said ≠ .ok out) → StoresStay s.server next.server →
          ∃ store', Behaves (Serves limits) store
            (shownBy s (commandAt s (.parse malloc)).toList next) store' ∧
              Refines limits next.server store' := by
        intro said last nodes runs notOk stays
        rw [commandAt_of_other phase found runs notOk]
        exact ⟨store, .nil store, holds.of_same stays⟩
      cases round with
      | waits last nodes runs => exact silent runs nofun ⟨rfl, rfl, rfl, rfl⟩
      | protests last nodes runs =>
        refine silent runs nofun ?_
        have sent := sendFormatted_keeps (s.parsed fd last nodes).server fd 64
          (respFormatError 64 (ascii "ERR protocol error")) _ _ rfl
        exact ⟨sent.kv, sent.registries, sent.book, sent.stack⟩
      | destroys last nodes out cmd rest server runs decoded ends => exact dispatched runs decoded ends rfl
      | handles last nodes released out cmd rest server runs decoded ends =>
        exact dispatched runs decoded ends rfl
  · have notParse : ∀ malloc, event ≠ .parse malloc := fun malloc same => isParse ⟨malloc, same⟩
    rw [commandAt_of_no_parse notParse]
    exact ⟨store, .nil store, holds.of_same (stepped.stays notParse)⟩

/-- **Every careful input is matched by the store.** -/
theorem loopStep_matched (holds : Refines limits s.server store) (inv : LoopInv s) {input : LoopInput}
    (careful : Careful s input) (taken : loopStep s input = some next) :
    ∃ store', Behaves (Serves limits) store (exchange s input next) store' ∧
      Refines limits next.server store' ∧ LoopInv next := by
  obtain ⟨⟨next, record⟩, recorded, rfl⟩ := Option.map_eq_some_iff.mp taken
  have isRecord : executed s input = record := by rw [executed, recorded]; rfl
  have kept := inv.step careful.own recorded
  have requests := careful.requests
  rw [isRecord] at requests
  rw [exchange, isRecord]
  rcases recordedLoop_cases inv careful.own recorded with
    ⟨last, event, rfl, stepped, rfl⟩ | ⟨fd, bytes, -, rfl, rfl⟩
  · obtain ⟨store', exchanged, later⟩ := systemStep_matched holds inv.system requests stepped
    exact ⟨store', exchanged, later, kept⟩
  · exact ⟨store, .nil store, holds.of_same ⟨rfl, rfl, rfl, rfl⟩, kept⟩

end Serves

/-- The server of a new system is a new one. -/
theorem systemCreate_server {config : ZedisConfig} {mapped : Option (Nat → UInt8)}
    {stack : Nat → UInt8} {start : System} (made : systemCreate config mapped stack = some start) :
    zedisCreate config mapped stack = some start.server := by
  obtain ⟨arena, -, made⟩ := Option.bind_eq_some_iff.mp made
  obtain ⟨⟨slab, arena'⟩, -, made⟩ := Option.bind_eq_some_iff.mp made
  obtain ⟨server, serverMade, rfl⟩ := Option.map_eq_some_iff.mp made
  exact serverMade

/-- A new system has no connections. -/
theorem systemCreate_loopInv {config : ZedisConfig} {mapped : Option (Nat → UInt8)}
    {stack : Nat → UInt8} {start : System} (made : systemCreate config mapped stack = some start) :
    LoopInv start := by
  have created := systemCreate_created made
  refine ⟨created.inv, fun conn listed => ?_⟩
  rw [created.conns] at listed
  cases listed

/-- **The running system serves the abstract store**: in every run of the event loop that keeps to the own
bytes of the write buffers, whatever the clients send and however it arrives, with connections opened,
closed and dropped in between, every request that is handled gets a reply that the store allows, which is
handed to `conn_queue_write` for the connection that asked and for no other, and the server holds the store
at the end. -/
theorem system_serves {config : ZedisConfig} {mapped : Option (Nat → UInt8)} {stack : Nat → UInt8}
    {start last : System} {inputs : List LoopInput}
    (made : systemCreate config mapped stack = some start) (keys : config.maxKeys ≤ 2 ^ 32)
    (size : config.aolSize < 2 ^ 32) (low : -2 ^ 31 ≤ config.bookPriceMin)
    (high : config.bookPriceMax < 2 ^ 31) (run : Run loopStep Careful start inputs last) :
    ∃ store, Behaves (Serves config.limits) Store.empty (observed loopStep exchange start inputs) store ∧
      Refines config.limits last.server store := by
  have empty : Refines config.limits start.server Store.empty :=
    zedisCreate_refines (systemCreate_server made) keys size low high
  obtain ⟨store, behaves, holds, -⟩ := run.refines
    (fun s store => Refines config.limits s.server store ∧ LoopInv s)
    (fun s store input next related careful taken =>
      loopStep_matched related.1 related.2 careful taken)
    ⟨empty, systemCreate_loopInv made⟩
  exact ⟨store, behaves, holds⟩

/-- The input keeps to the own bytes, and handles no `DEL` and no order. -/
def plain (s : System) (input : LoopInput) : Bool :=
  decide (KeepsOwn s input) && (executed s input).all fun asked =>
    match requestOf asked.2 with
    | some (.del _) => false
    | some (.order _ _ _) => false
    | _ => true

theorem careful_of_plain {s : System} {input : LoopInput} (isPlain : plain s input = true) :
    Careful s input := by
  rw [plain, Bool.and_eq_true, decide_eq_true_eq, List.all_eq_true] at isPlain
  refine ⟨isPlain.1, fun asked member request made => ?_⟩
  have here := isPlain.2 asked member
  rw [made] at here
  cases request with
  | del key => cases here
  | order side price qty => cases here
  | _ => trivial

/-- A client stores a string and reads it. -/
def sampleStores : List LoopInput :=
  (sampleOpens 5 [] ++ sampleSends 5 (ascii "SET a 1\r\nGET a\r\n") 3).map (.event (some 5)) ++
    [.shared 5 [1, 2]]

theorem system_serves_sample : ∃ start last store,
    systemCreate sampleConfig (some fun _ => 0) (fun _ => 0) = some start ∧
      Run loopStep Careful start sampleStores last ∧
      Behaves (Serves sampleConfig.limits) Store.empty (observed loopStep exchange start sampleStores)
        store ∧ Refines sampleConfig.limits last.server store := by
  have shown : ((systemCreate sampleConfig (some fun _ => 0) fun _ => 0).bind fun start =>
      replay (fun s input => if plain s input = true then loopStep s input else none) start
        sampleStores).isSome = true := by decide +kernel
  obtain ⟨last, returned⟩ := Option.isSome_iff_exists.mp shown
  obtain ⟨start, made, replayed⟩ := Option.bind_eq_some_iff.mp returned
  have guarded : Run loopStep (fun s input => plain s input = true) start sampleStores last :=
    Run.of_guarded replayed
  have run : Run loopStep Careful start sampleStores last :=
    guarded.mono fun _ _ isPlain => careful_of_plain isPlain
  obtain ⟨store, behaves, holds⟩ :=
    system_serves made (by decide) (by decide) (by decide) (by decide) run
  exact ⟨start, last, store, made, run, behaves, holds⟩

end Zedis.EventLoop

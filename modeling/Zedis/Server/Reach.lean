/-
**What holds in every state of the server.**

`serverHandleCommand_handled` says everything that `server_handle_command` can do: nothing for an empty
command, an error for what is not an array or does not start with a bulk string, the text for an unknown
command, or what the handler does. The invariant holds after `zedis_create` and is kept by every event,
so it holds in every reachable state (`Reachable.inv`).
-/

import Zedis.Server.Handlers

namespace Zedis.Server

open Zedis.Lib Zedis.Arena Zedis.HashTable Zedis.Registry Zedis.Resp Zedis.Connection Zedis.RingBuffer

/-- The command that a value names. -/
def commandOf : RespValue Bytes → Option CommandName
  | .array elements => (cmdBulk elements 0).bind findCommand
  | _ => none

/-- The elements of a command. -/
def elementsOf : RespValue Bytes → List (RespValue Bytes)
  | .array elements => elements
  | _ => []

theorem commandOf_of_unfound {elements : List (RespValue Bytes)} {name : Bytes}
    (named : cmdBulk elements 0 = some name) (unfound : findCommand name = none) :
    commandOf (.array elements) = none := by
  rw [commandOf, named, Option.bind_some, unfound]

/-- The ring after a command. -/
def ringOf (server : ZedisServer) (cmd : RespValue Bytes) : ZedisRingBuffer :=
  match commandOf cmd with
  | some command => ringAfter server (elementsOf cmd) command
  | none => server.ring

/-- The call that replies to an unknown command. -/
def unknownCall (fd : Nat) (name : Bytes) : QueueCall :=
  ⟨fd, 512, snprintf 512 (unknownText name), (unknownText name).length, false⟩

/-- **The calls that a command makes**: pushes, and those of its reply. -/
inductive Handled (server : ZedisServer) (fd : Nat) :
    RespValue Bytes → List QueueCall → List QueueCall → Prop
  | empty : Handled server fd (.array []) [] []
  | format (cmd : RespValue Bytes) (msg : Bytes) : cmd ≠ .array [] →
      cmdBulk (elementsOf cmd) 0 = none → Line msg →
      Handled server fd cmd [] [encodedCall fd 512 (.error msg)]
  | unknown (elements : List (RespValue Bytes)) (name : Bytes) : cmdBulk elements 0 = some name →
      findCommand name = none → Handled server fd (.array elements) [] [unknownCall fd name]
  | known (elements : List (RespValue Bytes)) (command : CommandName) (pushes own : List QueueCall) :
      commandOf (.array elements) = some command → (∀ call ∈ pushes, Pushed call) →
      Reply server fd elements command own → Handled server fd (.array elements) pushes own

/-- What holds after a command, given what it returned. -/
theorem exists_handled_iff {server after : ZedisServer} {fd : Nat} {cmd : RespValue Bytes} {rc : Int}
    {P : ZedisServer → Prop} (ends : serverHandleCommand server fd cmd = some (rc, after)) :
    (∃ rc after, serverHandleCommand server fd cmd = some (rc, after) ∧ P after) ↔ P after := by
  constructor
  · rintro ⟨_, _, ends', holds⟩
    cases ends.symm.trans ends'
    exact holds
  · exact fun holds => ⟨rc, after, ends, holds⟩

section Command

variable {server : ZedisServer} (inv : ServerInv server) (fd : Nat)
include inv

theorem serverHandleCommand_format {cmd : RespValue Bytes} (nonempty : cmd ≠ .array [])
    (noName : cmdBulk (elementsOf cmd) 0 = none) : ∃ msg after,
      serverHandleCommand server fd cmd = some (0, after) ∧
      Emits server server.ring after [encodedCall fd 512 (.error msg)] ∧ Line msg := by
  have runs : ∃ msg, serverHandleCommand server fd cmd = some (replyError server fd msg) ∧ Line msg := by
    cases cmd with
    | array elements =>
      cases elements with
      | nil => exact absurd rfl nonempty
      | cons element elements =>
        change cmdBulk (element :: elements) 0 = none at noName
        exact ⟨_, by simp only [serverHandleCommand, noName]; rfl, line_ofList (by decide)⟩
    | simple text => exact ⟨_, rfl, line_ofList (by decide)⟩
    | error text => exact ⟨_, rfl, line_ofList (by decide)⟩
    | integer value => exact ⟨_, rfl, line_ofList (by decide)⟩
    | bulk data => exact ⟨_, rfl, line_ofList (by decide)⟩
    | null => exact ⟨_, rfl, line_ofList (by decide)⟩
  obtain ⟨msg, runs, line⟩ := runs
  rw [replyError_eq line] at runs
  exact ⟨msg, _, runs, (Emits.refl inv).queue _, line⟩

omit inv in
theorem serverHandleCommand_named {elements : List (RespValue Bytes)} {name : Bytes}
    (named : cmdBulk elements 0 = some name) : serverHandleCommand server fd (.array elements) =
      (findCommand name).elim (some (sendPrinted server fd 512 (unknownText name)))
        fun command => command.fn server fd elements := by
  cases elements with
  | nil => cases named
  | cons element elements =>
    cases found : findCommand name with
    | none => simp only [serverHandleCommand, named, found, Option.elim_none]
    | some command => simp only [serverHandleCommand, named, found, Option.elim_some]

omit inv in
/-- A command of the table runs its handler. -/
theorem serverHandleCommand_known {elements : List (RespValue Bytes)} {command : CommandName}
    (known : commandOf (.array elements) = some command) :
    serverHandleCommand server fd (.array elements) = command.fn server fd elements := by
  obtain ⟨name, named, found⟩ := Option.bind_eq_some_iff.mp known
  rw [serverHandleCommand_named fd named, found, Option.elim_some]

/-- **Everything `server_handle_command` can do.** -/
theorem serverHandleCommand_handled (cmd : RespValue Bytes) : ∃ rc after pushes own,
    serverHandleCommand server fd cmd = some (rc, after) ∧
      Emits server (ringOf server cmd) after (pushes ++ own) ∧ Handled server fd cmd pushes own := by
  by_cases isEmpty : cmd = .array []
  · subst isEmpty
    exact ⟨0, server, [], [], rfl, .refl inv, .empty⟩
  · cases named : cmdBulk (elementsOf cmd) 0 with
    | none =>
      obtain ⟨msg, after, runs, emits, line⟩ := serverHandleCommand_format inv fd isEmpty named
      have ring : ringOf server cmd = server.ring := by
        cases cmd with
        | array elements =>
          change cmdBulk elements 0 = none at named
          rw [ringOf, commandOf, named]
          rfl
        | _ => rfl
      exact ⟨0, after, [], [_], runs, ring ▸ emits, .format cmd msg isEmpty named line⟩
    | some name =>
      cases cmd with
      | array elements =>
        change cmdBulk elements 0 = some name at named
        have isCommand : commandOf (.array elements) = findCommand name := by
          rw [commandOf, named, Option.bind_some]
        cases found : findCommand name with
        | none =>
          have runs : serverHandleCommand server fd (.array elements) = _ :=
            serverHandleCommand_named fd named
          have positive : (unknownText name).length > 0 := Nat.succ_pos _
          rw [found, Option.elim_none, sendPrinted, if_pos positive] at runs
          have ring : ringOf server (.array elements) = server.ring := by
            rw [ringOf, isCommand, found]
          exact ⟨0, _, [], [_], runs, ring ▸ (Emits.refl inv).queue _, .unknown elements name named found⟩
        | some command =>
          rw [found] at isCommand
          obtain ⟨rc, after, pushes, own, ends, emits, pushed, reply⟩ := command.handles inv fd elements
          have ring : ringOf server (.array elements) = ringAfter server elements command := by
            rw [ringOf, isCommand]
            rfl
          exact ⟨rc, after, pushes, own, (serverHandleCommand_known fd isCommand).trans ends, ring ▸ emits,
            .known elements command pushes own isCommand pushed reply⟩
      | _ => cases named

end Command

/-! ### Events -/

/-- A state that `zedis_create` and then events meeting `ok` lead to. -/
def ReachableBy (ok : ZedisServer → ServerEvent → Prop) (server : ZedisServer) : Prop :=
  ∃ config mapped stack start events, zedisCreate config mapped stack = some start ∧
    Run serverStep ok start events server

/-- A state that `zedis_create` and then any events lead to. -/
abbrev Reachable (server : ZedisServer) : Prop := ReachableBy Always server

section Events

variable {server next : ZedisServer}

/-- A command of a connected client is an event. -/
theorem ReachableBy.command {fd : Nat} {cmd : RespValue Bytes} {rc : Int} (reach : Reachable server)
    (isConnected : connected server fd = true)
    (ends : serverHandleCommand server fd cmd = some (rc, next)) : Reachable next := by
  obtain ⟨config, mapped, stack, start, events, made, run⟩ := reach
  have taken : serverStep server (.command fd cmd) = some next := by
    rw [serverStep, if_pos isConnected, ends, Option.map_some]
  exact ⟨config, mapped, stack, start, _, made, run.snoc trivial taken⟩

theorem connected_iff {fd : Nat} : connected server fd = true ↔ fd ∈ server.conns.map Conn.fd := by
  rw [connected, List.any_eq_true, List.mem_map]
  simp only [beq_iff_eq]

/-- The parts of a new server. -/
structure Created (config : ZedisConfig) (stack : Nat → UInt8) (server : ZedisServer) : Prop where
  inv : ServerInv server
  conns : server.conns = []
  calls : server.calls = []
  stack : server.stack = stack
  ring : ∃ arena arena', zedisRingInit arena config.ringCapacity.toUInt64 = some (server.ring, arena')
  fresh : Fresh server.toRegistries
  log : ∃ mapped, AppendLog.zedisAolInit mapped config.aolSize = some server.log

theorem zedisCreate_created {config : ZedisConfig} {mapped : Option (Nat → UInt8)}
    {stack : Nat → UInt8} (made : zedisCreate config mapped stack = some server) :
    Created config stack server := by
  obtain ⟨arena₀, -, made⟩ := Option.bind_eq_some_iff.mp made
  obtain ⟨⟨slab, arena₁⟩, -, made⟩ := Option.bind_eq_some_iff.mp made
  obtain ⟨⟨kv, arena₂⟩, kvMade, made⟩ := Option.bind_eq_some_iff.mp made
  obtain ⟨⟨book, arena₃⟩, -, made⟩ := Option.bind_eq_some_iff.mp made
  obtain ⟨⟨ring, arena₄⟩, ringMade, made⟩ := Option.bind_eq_some_iff.mp made
  obtain ⟨log, logMade, made⟩ := Option.bind_eq_some_iff.mp made
  obtain ⟨⟨zsets, arena₅⟩, zsetsMade, made⟩ := Option.bind_eq_some_iff.mp made
  obtain ⟨⟨lists, arena₆⟩, listsMade, rfl⟩ := Option.map_eq_some_iff.mp made
  obtain ⟨positive, isKv⟩ := zedisHtInit_eq kvMade
  have fresh : Fresh ⟨zsets, lists, log⟩ := ⟨_, _, _, _, _, _, _, _, _, zsetsMade, listsMade, logMade⟩
  refine ⟨⟨?_, fresh.inv, List.nodup_nil, nofun⟩, rfl, rfl, rfl, ⟨_, _, ringMade⟩, fresh, ⟨_, logMade⟩⟩
  change TableInv kv
  rw [isKv]
  exact init_inv positive

/-- **Every event keeps the invariant.** -/
theorem ServerInv.step (inv : ServerInv server) {event : ServerEvent}
    (taken : serverStep server event = some next) : ServerInv next := by
  cases event with
  | accept fd parser writeBuf answers =>
    rw [serverStep] at taken
    split at taken
    · cases taken
    · rename_i free
      cases taken
      refine ⟨inv.kv, inv.registries, List.nodup_cons.mpr ⟨?_, inv.fds⟩, fun conn member => ?_⟩
      · exact fun old => free (connected_iff.mpr old)
      · rcases List.mem_cons.mp member with rfl | old
        · exact ⟨le_rfl, Nat.zero_le _⟩
        · exact inv.counted conn old
  | command fd cmd =>
    rw [serverStep] at taken
    split at taken
    · obtain ⟨rc, after, pushes, own, ends, emits, -⟩ := serverHandleCommand_handled inv fd cmd
      rw [ends] at taken
      cases taken
      exact emits.inv
    · cases taken
  | writable fd =>
    rw [serverStep] at taken
    split at taken
    · cases taken
    · rename_i conn found
      have flushed := connFlush_flushed (inv.counted conn (List.mem_of_find?_eq_some found))
      have isFd := List.find?_some (p := fun conn : Conn => conn.fd == fd) found
      have kept := inv.changeConn fd (fun _ => (connOnWritable conn).2)
        (fun _ _ _ => flushed.same.fd.trans (beq_iff_eq.mp isFd)) fun _ _ _ => flushed.counted
      cases taken
      split
      · exact kept.connDestroy fd
      · exact kept
  | destroy fd =>
    rw [serverStep] at taken
    split at taken
    · cases taken
      exact inv.connDestroy fd
    · cases taken

/-- **Every reachable state meets the invariant.** -/
theorem ReachableBy.inv {ok : ZedisServer → ServerEvent → Prop} (reach : ReachableBy ok server) :
    ServerInv server := by
  obtain ⟨config, mapped, stack, start, events, made, run⟩ := reach
  exact run.invariant ServerInv (fun _ _ _ inv _ taken => inv.step taken) (zedisCreate_created made).inv

end Events

/-! ### Connections and commands -/

/-- The connection with a descriptor. -/
def connOf (server : ZedisServer) (fd : Nat) : Option Conn := server.conns.find? fun conn => conn.fd == fd

theorem connOf_spec {server : ZedisServer} {fd : Nat} {conn : Conn} (found : connOf server fd = some conn) :
    conn ∈ server.conns ∧ conn.fd = fd :=
  ⟨List.mem_of_find?_eq_some found,
    beq_iff_eq.mp (List.find?_some (p := fun conn : Conn => conn.fd == fd) found)⟩

theorem connOf_of_mem {server : ZedisServer} {conn : Conn} (inv : ServerInv server)
    (member : conn ∈ server.conns) : connOf server conn.fd = some conn := by
  have isFound : (connOf server conn.fd).isSome = true :=
    List.find?_isSome.mpr ⟨conn, member, beq_self_eq_true conn.fd⟩
  obtain ⟨other, found⟩ := Option.isSome_iff_exists.mp isFound
  obtain ⟨inside, sameFd⟩ := connOf_spec found
  rw [found, List.inj_on_of_nodup_map inv.fds inside member sameFd]

/-- The connection is open and its write buffer is empty. -/
def idle (server : ZedisServer) (fd : Nat) : Bool :=
  (connOf server fd).any fun conn => !conn.closed && conn.writeLen == 0

/-- A value that `resp_parser_next` returns for some content of a connection's buffer. -/
def Parsed (cmd : RespValue Bytes) : Prop :=
  ∃ p parsed after, p.Valid ∧ p.bufCap = 64 * 1024 ∧ respParserNext p = some (.ok parsed, after) ∧
    parsed.contents after.buf = cmd

theorem parsed_of_encodable {cmd : RespValue Bytes} (encodable : Encodable cmd)
    (fits : (encode cmd).length ≤ 64 * 1024) : Parsed cmd := by
  let p : RespParser := ⟨fun _ => 0, 64 * 1024, 0, 0⟩
  have valid : p.Valid := ⟨Nat.le_refl 0, Nat.zero_le _, by decide⟩
  have feeds : respParserFeed p (encode cmd) = some (appendBytes p (encode cmd)) := by
    rw [respParserFeed, if_neg (length_encode_pos cmd).ne', if_pos ((Nat.zero_add _).trans_le fits)]
  obtain ⟨fedValid, text⟩ := respParserFeed_spec valid feeds
  rw [show unread p = [] from rfl, List.nil_append] at text
  obtain ⟨parsed, after, next, same, -⟩ :=
    respParserNext_read fedValid encodable (text.trans (List.append_nil _).symm)
  exact ⟨_, parsed, after, fedValid, rfl, next, same⟩

/-! ### A small server -/

/-- The configuration of a small server. -/
def sampleConfig : ZedisConfig where
  arenaSize := 2 ^ 21
  maxKeys := 4
  maxConnections := 1
  ringCapacity := 2
  maxZsets := 1
  maxLists := 1
  zsetMembers := 4
  aolSize := 8192
  bookPriceMin := 0
  bookPriceMax := 1

/-- The small server after some events, in zeroed memory. -/
def sampleServer (events : List ServerEvent) : Option ZedisServer :=
  (zedisCreate sampleConfig (some fun _ => 0) fun _ => 0).bind fun start =>
    replay serverStep start events

/-- A client with descriptor 5, whose socket will give these answers. -/
def sampleClient (answers : List WriteAnswer) : ServerEvent :=
  .accept 5 ⟨fun _ => 0, 64 * 1024, 0, 0⟩ (fun _ => 0) answers

/-- A second client, with descriptor 6. -/
def sampleOther : ServerEvent := .accept 6 ⟨fun _ => 0, 64 * 1024, 0, 0⟩ (fun _ => 0) []

/-- A command of bulk strings. -/
def bulks (words : List Bytes) : RespValue Bytes := .array (words.map .bulk)

theorem encodable_bulks (words : List Bytes) : EncodableAll (words.map .bulk) :=
  encodableAll_of_each fun value member => by
    obtain ⟨word, -, rfl⟩ := List.mem_map.mp member
    trivial

theorem parsed_bulks {words : List Bytes} (fits : (encode (bulks words)).length ≤ 64 * 1024) :
    Parsed (bulks words) :=
  parsed_of_encodable (encodable_bulks words) fits

theorem reachable_sampleServer {events : List ServerEvent} {server : ZedisServer}
    (returned : sampleServer events = some server) : Reachable server := by
  obtain ⟨start, made, replayed⟩ := Option.bind_eq_some_iff.mp returned
  exact ⟨_, _, _, start, events, made, Run.of_replay (fun _ _ _ => trivial) replayed⟩

/-- What is seen of the small server after some events is seen of a reachable one. -/
theorem exists_sampleServer {α : Type} {events : List ServerEvent} {view : ZedisServer → α} {seen : α}
    (shown : (sampleServer events).map view = some seen) :
    ∃ server, sampleServer events = some server ∧ Reachable server ∧ view server = seen := by
  obtain ⟨server, returned, same⟩ := Option.map_eq_some_iff.mp shown
  exact ⟨server, returned, reachable_sampleServer returned, same⟩

/-- The small server with an idle client. -/
theorem exists_idleServer : ∃ server, sampleServer [sampleClient []] = some server ∧
    Reachable server ∧ idle server 5 = true :=
  exists_sampleServer (show (sampleServer [sampleClient []]).map _ = some true by decide +kernel)

/-- All elements of a list. -/
def sampleRange : RespValue Bytes := bulks [ascii "LRANGE", ascii "l", ascii "0", ascii "-1"]

/-- The small server with an idle client that has pushed an element to a list. -/
theorem exists_listServer : ∃ server, Reachable server ∧ idle server 5 = true ∧
    (connOf server 5).map (fun conn => conn.socket.answers) = some [] ∧
    listItems server.lists server.log (ascii "l") = [ascii "hello"] := by
  have shown : (sampleServer [sampleClient [.takes 9],
      .command 5 (bulks [ascii "LPUSH", ascii "l", ascii "hello"])]).map (fun server =>
        (idle server 5, (connOf server 5).map fun conn => conn.socket.answers,
          listItems server.lists server.log (ascii "l"))) = some (true, some [], [ascii "hello"]) := by
    decide +kernel
  obtain ⟨server, -, reach, seen⟩ := exists_sampleServer shown
  obtain ⟨isIdle, rest⟩ := Prod.mk.inj seen
  exact ⟨server, reach, isIdle, Prod.mk.inj rest⟩

end Zedis.Server

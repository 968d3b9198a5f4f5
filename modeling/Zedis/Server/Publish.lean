/-
**`PUBLISH` over a whole run.**

`publish_command` puts each message in the ring and nothing takes it out again: no step of the server
calls `zedis_ring_poll`. `publish_accepted_iff`: in every run from `zedis_create`, a `PUBLISH` is
accepted and broadcast exactly if fewer than `capacity` others came before it, where `capacity` is the
configured one rounded up to a power of two. From then on every `PUBLISH` is refused.
-/

import Zedis.Server.Replies

namespace Zedis.Server

open Zedis.Lib Zedis.Reply Zedis.Resp Zedis.Connection Zedis.RingBuffer

/-- The channel and the message of a `PUBLISH` with two bulk strings. -/
def publishArgs (cmd : RespValue Bytes) : Option (Bytes × Bytes) :=
  match commandOf cmd, cmdBulk (elementsOf cmd) 1, cmdBulk (elementsOf cmd) 2 with
  | some .publish, some channel, some message => some (channel, message)
  | _, _, _ => none

/-- The event is a `PUBLISH` of a message that is short enough. -/
def publishes : ServerEvent → Bool
  | .command _ cmd => (publishArgs cmd).any fun args => args.2.length ≤ zedisRingMsgMax
  | _ => false

/-- **The message is accepted**: it goes to every connection that receives the channel, and the reply is
their number. -/
def Broadcasts (server : ZedisServer) (fd : Nat) (cmd : RespValue Bytes) (channel message : Bytes) :
    Prop :=
  ∃ after, serverHandleCommand server fd cmd = some (0, after) ∧
    callsSince server after =
      (server.conns.filter (receives (channelName channel))).map
          (pushCall (cstr (channelName channel)) message) ++
        [encodedCall fd 64 (.integer (wrap64
          (server.conns.filter (receives (channelName channel))).length))]

section Publish

variable {server next : ZedisServer} {fd : Nat} {cmd : RespValue Bytes} {channel message : Bytes}

theorem publishArgs_eq_some (args : publishArgs cmd = some (channel, message)) :
    commandOf cmd = some .publish ∧ cmdBulk (elementsOf cmd) 1 = some channel ∧
      cmdBulk (elementsOf cmd) 2 = some message := by
  unfold publishArgs at args
  split at args
  · rename_i isPublish first second
    cases args
    exact ⟨isPublish, first, second⟩
  · cases args

/-- The ring after a command. -/
theorem ringOf_eq : ringOf server cmd =
    match publishArgs cmd with
    | some (channel, message) =>
      (zedisRingPublish server.ring (channelName channel) message).getD server.ring
    | none => server.ring := by
  unfold ringOf publishArgs
  cases commandOf cmd with
  | none => rfl
  | some command =>
    cases command with
    | publish =>
      simp only [ringAfter]
      cases cmdBulk (elementsOf cmd) 1 with
      | none => rfl
      | some channel =>
        cases cmdBulk (elementsOf cmd) 2 with
        | none => rfl
        | some message => rfl
    | _ => rfl

/-- A `PUBLISH` that the ring refuses is answered with an error. -/
theorem publish_refused (fd : Nat) (args : publishArgs cmd = some (channel, message))
    (refused : zedisRingPublish server.ring (channelName channel) message = none) :
    ∃ after, serverHandleCommand server fd cmd = some (0, after) ∧
      callsSince server after = [encodedCall fd 512 (.error (ascii "ERR ring buffer full"))] := by
  obtain ⟨isPublish, first, second⟩ := publishArgs_eq_some args
  cases cmd with
  | array elements =>
    change cmdBulk elements 1 = some channel at first
    change cmdBulk elements 2 = some message at second
    have runs : serverHandleCommand server fd (.array elements) = publishCommand server fd elements :=
      serverHandleCommand_known fd isPublish
    simp only [publishCommand, first, second, refused] at runs
    rw [replyError_eq (by decide)] at runs
    exact ⟨_, runs, callsSince_queueWrite _ _⟩
  | _ => cases isPublish

/-- A `PUBLISH` that the ring takes is broadcast. -/
theorem publish_taken (inv : ServerInv server) (fd : Nat) (args : publishArgs cmd = some (channel, message))
    {ring : ZedisRingBuffer}
    (taken : zedisRingPublish server.ring (channelName channel) message = some ring) :
    Broadcasts server fd cmd channel message := by
  obtain ⟨isPublish, first, second⟩ := publishArgs_eq_some args
  cases cmd with
  | array elements =>
    obtain ⟨after, ends, emits⟩ := publishCommand_accepts inv fd elements first second taken
    exact ⟨after, (serverHandleCommand_known fd isPublish).trans ends, emits.callsSince⟩
  | _ => cases isPublish

/-- A `PUBLISH` that the ring takes is broadcast, another is not. -/
theorem broadcasts_iff (inv : ServerInv server) (args : publishArgs cmd = some (channel, message)) :
    Broadcasts server fd cmd channel message ↔
      ∃ ring, zedisRingPublish server.ring (channelName channel) message = some ring := by
  constructor
  · rintro ⟨after, ends, calls⟩
    cases taken : zedisRingPublish server.ring (channelName channel) message with
    | some ring => exact ⟨ring, rfl⟩
    | none =>
      -- the last call would be the reply, in a buffer of another size
      obtain ⟨after', ends', calls'⟩ := publish_refused fd args taken
      cases ends.symm.trans ends'
      have last := congrArg List.getLast? (calls'.symm.trans calls)
      rw [List.getLast?_singleton, List.getLast?_concat] at last
      have sizes : 512 = 64 := congrArg QueueCall.size (Option.some.inj last)
      exact absurd sizes (by decide)
  · rintro ⟨ring, taken⟩
    exact publish_taken inv fd args taken

/-! ### Runs -/

/-- Only a command changes the ring. -/
theorem serverStep_ring (inv : ServerInv server) {event : ServerEvent}
    (taken : serverStep server event = some next) :
    next.ring = match event with
      | .command _ cmd => ringOf server cmd
      | _ => server.ring := by
  cases event with
  | accept fd parser writeBuf answers =>
    obtain ⟨-, same⟩ := Option.ite_none_left_eq_some.mp taken
    cases same
    rfl
  | command fd cmd =>
    obtain ⟨-, same⟩ := Option.ite_none_right_eq_some.mp taken
    obtain ⟨rc, after, pushes, own, ends, emits, -⟩ := serverHandleCommand_handled inv fd cmd
    rw [ends] at same
    cases same
    exact emits.ring
  | writable fd =>
    rw [serverStep] at taken
    split at taken
    · cases taken
    · cases taken
      split
      · rfl
      · rfl
  | destroy fd =>
    obtain ⟨-, same⟩ := Option.ite_none_right_eq_some.mp taken
    cases same
    rfl

/-- The invariant of a run, for the events so far. -/
structure Counting (capacity : UInt64) (past : List ServerEvent) (server : ZedisServer) : Prop where
  inv : ServerInv server
  ring : Unpolled capacity (past.countP publishes) server.ring

theorem Counting.step {capacity : UInt64} {past : List ServerEvent} {event : ServerEvent}
    (counting : Counting capacity past server) (taken : serverStep server event = some next) :
    Counting capacity (past ++ [event]) next := by
  refine ⟨counting.inv.step taken, ?_⟩
  rw [serverStep_ring counting.inv taken, List.countP_append, List.countP_singleton]
  cases event with
  | command fd cmd =>
    dsimp only
    rw [ringOf_eq, publishes]
    cases publishArgs cmd with
    | none => exact counting.ring
    | some args =>
      have published := counting.ring.publish (channelName args.1) args.2
      simp only [Option.any_some, decide_eq_true_eq]
      exact published
  | _ => exact counting.ring

theorem counting_of_run {config : ZedisConfig} {mapped : Option (Nat → UInt8)}
    {stack : Nat → UInt8} {start : ZedisServer} {events : List ServerEvent}
    (made : zedisCreate config mapped stack = some start)
    (run : Run serverStep Always start events server) :
    Counting (nextPowerOfTwo config.ringCapacity.toUInt64) events server := by
  have created := zedisCreate_created made
  obtain ⟨arena, arena', ringMade⟩ := created.ring
  have first : Counting (nextPowerOfTwo config.ringCapacity.toUInt64) [] start :=
    ⟨created.inv, Unpolled.init ringMade⟩
  have counting := run.history (Counting _) (fun _ _ _ _ counting _ taken => counting.step taken) first
  rw [List.nil_append] at counting
  exact counting

/-- **A `PUBLISH` is accepted exactly if fewer than `capacity` came before it.** -/
theorem publish_accepted_iff {config : ZedisConfig} {mapped : Option (Nat → UInt8)}
    {stack : Nat → UInt8} {start : ZedisServer} {events : List ServerEvent}
    (made : zedisCreate config mapped stack = some start)
    (run : Run serverStep Always start events server) (fd : Nat)
    (args : publishArgs cmd = some (channel, message)) (short : message.length ≤ zedisRingMsgMax) :
    Broadcasts server fd cmd channel message ↔
      events.countP publishes < (nextPowerOfTwo config.ringCapacity.toUInt64).toNat := by
  have counting := counting_of_run made run
  rw [broadcasts_iff counting.inv args, counting.ring.accepts_iff short]

/-- `PUBLISH c m`. -/
def samplePublish : RespValue Bytes := bulks [ascii "PUBLISH", ascii "c", ascii "m"]

/-- The third message to a ring of two slots is refused. -/
theorem third_publish_refused : ∃ server, Reachable server ∧ idle server 5 = true ∧
    Parsed samplePublish ∧ publishArgs samplePublish = some (ascii "c", ascii "m") ∧
    ((serverHandleCommand server 5 samplePublish).map fun result =>
      (callsSince server result.2).map fun call => call.data server.stack) =
        some [encode (.error (ascii "ERR ring buffer full"))] ∧
    ¬ Broadcasts server 5 samplePublish (ascii "c") (ascii "m") := by
  let events := [sampleClient [.takes 9, .takes 9], .command 5 samplePublish, .command 5 samplePublish]
  have refused : ((sampleServer events).map fun server => (idle server 5,
      (zedisRingPublish server.ring (channelName (ascii "c")) (ascii "m")).isSome,
      (serverHandleCommand server 5 samplePublish).map fun result =>
        (callsSince server result.2).map fun call => call.data server.stack)) =
          some (true, false, some [encode (.error (ascii "ERR ring buffer full"))]) := by decide +kernel
  obtain ⟨server, -, reach, seen⟩ := exists_sampleServer refused
  obtain ⟨isIdle, rest⟩ := Prod.mk.inj seen
  obtain ⟨full, reply⟩ := Prod.mk.inj rest
  have args : publishArgs samplePublish = some (ascii "c", ascii "m") := by decide
  refine ⟨server, reach, isIdle, parsed_bulks (by decide), args, reply, fun broadcasts => ?_⟩
  obtain ⟨ring, taken⟩ := (broadcasts_iff reach.inv args).mp broadcasts
  rw [taken] at full
  cases full

/-- The first message. -/
theorem publish_accepted_iff_first : ∃ start server,
    zedisCreate sampleConfig (some fun _ => 0) (fun _ => 0) = some start ∧
      Run serverStep Always start [sampleClient []] server ∧
      (Broadcasts server 5 samplePublish (ascii "c") (ascii "m") ↔
        [sampleClient []].countP publishes < (nextPowerOfTwo (2 : Nat).toUInt64).toNat) := by
  obtain ⟨server, returned, -⟩ := exists_idleServer
  obtain ⟨start, made, replayed⟩ := Option.bind_eq_some_iff.mp returned
  have run : Run serverStep Always start [sampleClient []] server :=
    Run.of_replay (fun _ _ _ => trivial) replayed
  exact ⟨start, server, made, run, publish_accepted_iff made run 5 (by decide) (by decide)⟩

end Publish

end Zedis.Server

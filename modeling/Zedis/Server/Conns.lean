/-
**The connections after a command.**

A command reaches the connections through its calls of `conn_queue_write` only, but for `SUBSCRIBE`,
which stores the channel name first, and `QUIT`, which destroys the connection. So after every other
command each connection is what the calls for its descriptor leave of it (`afterCalls`), whatever the
command and the state of the server were; and only a `PUBLISH` that the ring takes makes calls for
other connections than its own (`serverHandleCommand_conns`).
-/

import Zedis.Server.Publish

namespace Zedis.Server

open Zedis.Lib Zedis.Registry Zedis.Resp Zedis.Connection Zedis.RingBuffer

/-- A connection after a call that may be for another one. -/
def receive (stack : Nat → UInt8) (conn : Conn) (call : QueueCall) : Conn :=
  if conn.fd = call.fd then (connQueueWrite conn (call.data stack)).2 else conn

/-- A connection after some calls. -/
def afterCalls (stack : Nat → UInt8) (calls : List QueueCall) (conn : Conn) : Conn :=
  calls.foldl (receive stack) conn

/-- The channel that a `SUBSCRIBE` names. -/
def subscribeArg (cmd : RespValue Bytes) : Option Bytes :=
  match commandOf cmd with
  | some .subscribe => cmdBulk (elementsOf cmd) 1
  | _ => none

/-- A connection with the name that was copied. -/
def withChannel (channel : Bytes) (conn : Conn) : Conn :=
  { conn with subscribeChannel := channelName channel, subscribed := true }

/-- The connections when the command makes its first call. -/
def subscribing (server : ZedisServer) (fd : Nat) (cmd : RespValue Bytes) : List Conn :=
  match subscribeArg cmd with
  | some channel => changeConn server.conns fd (withChannel channel)
  | none => server.conns

/-- Since `server`, whose connections are now `conns`, the calls `calls` were made. -/
structure Sent (server : ZedisServer) (conns : List Conn) (after : ZedisServer)
    (calls : List QueueCall) : Prop where
  stack : after.stack = server.stack
  conns : after.conns = conns.map (afterCalls server.stack calls)
  calls : after.calls = server.calls ++ calls

/-! ### One connection -/

section Conn

variable {conn : Conn} (stack : Nat → UInt8)

/-- What every call keeps, all calls keep. -/
theorem afterCalls_invariant (P : Conn → Prop)
    (keeps : ∀ conn call, P conn → P (receive stack conn call)) (calls : List QueueCall)
    (start : P conn) : P (afterCalls stack calls conn) := by
  induction calls generalizing conn with
  | nil => exact start
  | cons call calls ih => exact ih (keeps conn call start)

theorem receive_kept (counted : Counted conn) (call : QueueCall) :
    Counted (receive stack conn call) ∧ SameReader conn (receive stack conn call) := by
  unfold receive
  split
  · have queued := connQueueWrite_queued counted (call.data stack)
    exact ⟨queued.counted, queued.same⟩
  · exact ⟨counted, .refl conn⟩

/-- **The calls change the write side only.** -/
theorem afterCalls_same (counted : Counted conn) (calls : List QueueCall) :
    SameReader conn (afterCalls stack calls conn) := by
  have kept := afterCalls_invariant stack (fun after => Counted after ∧ SameReader conn after)
    (fun after call ⟨counted, same⟩ => by
      obtain ⟨counted', same'⟩ := receive_kept stack counted call
      exact ⟨counted', same.trans same'⟩) calls ⟨counted, .refl conn⟩
  exact kept.2

/-- Calls for other connections do not change this one. -/
theorem afterCalls_of_others {calls : List QueueCall} (others : ∀ call ∈ calls, conn.fd ≠ call.fd) :
    afterCalls stack calls conn = conn := by
  induction calls with
  | nil => rfl
  | cons call calls ih =>
    have first : receive stack conn call = conn := if_neg (others call List.mem_cons_self)
    change afterCalls stack calls (receive stack conn call) = conn
    rw [first]
    exact ih fun later member => others later (List.mem_cons_of_mem call member)

/-- Of the pushes to some receivers, a connection gets its own. -/
theorem afterCalls_pushes (counted : Counted conn) (channel payload : Bytes) {receivers : List Conn}
    (nodup : (receivers.map Conn.fd).Nodup) :
    afterCalls stack (receivers.map (pushCall channel payload)) conn =
      if conn.fd ∈ receivers.map Conn.fd then
        (connQueueWrite conn (encode (published channel payload))).2
      else conn := by
  induction receivers with
  | nil => rfl
  | cons receiver receivers ih =>
    rw [List.map_cons, List.nodup_cons] at nodup
    change afterCalls stack (receivers.map (pushCall channel payload))
      (receive stack conn (pushCall channel payload receiver)) = _
    have text : (pushCall channel payload receiver).data stack = encode (published channel payload) :=
      data_of_front List.prefix_rfl rfl stack
    by_cases isFirst : conn.fd = receiver.fd
    · have first : receive stack conn (pushCall channel payload receiver) =
          (connQueueWrite conn (encode (published channel payload))).2 := by
        rw [receive, if_pos (show conn.fd = (pushCall channel payload receiver).fd from isFirst), text]
      have same := (connQueueWrite_queued counted (encode (published channel payload))).same
      rw [first, List.map_cons, isFirst, if_pos List.mem_cons_self]
      -- the others are for other descriptors
      refine afterCalls_of_others stack fun call member => ?_
      obtain ⟨later, inside, rfl⟩ := List.mem_map.mp member
      rw [same.fd, isFirst]
      exact fun same => nodup.1 (same ▸ List.mem_map_of_mem inside)
    · have first : receive stack conn (pushCall channel payload receiver) = conn := if_neg isFirst
      rw [first, ih nodup.2, List.map_cons]
      simp only [List.mem_cons, isFirst, false_or]

end Conn

/-! ### Handlers -/

section Handlers

variable {server : ZedisServer} {conns : List Conn} {fd : Nat}

/-- What a handler returns was sent, to its own connection only. -/
def Sends (server : ZedisServer) (fd : Nat) (conns : List Conn)
    (result : Option (Int × ZedisServer)) : Prop :=
  ∀ rc after, result = some (rc, after) →
    rc = 0 ∧ ∃ calls, Sent server conns after calls ∧ ∀ call ∈ calls, call.fd = fd

theorem Sent.refl (server : ZedisServer) : Sent server server.conns server [] :=
  ⟨rfl, (List.map_id' server.conns).symm, (List.append_nil _).symm⟩

theorem Sent.queue {after : ZedisServer} {calls : List QueueCall}
    (sent : Sent server conns after calls) (call : QueueCall) :
    Sent server conns (queueWrite after call) (calls ++ [call]) where
  stack := sent.stack
  calls := by
    change after.calls ++ [call] = _
    rw [sent.calls, List.append_assoc]
  conns := by
    have one : (queueWrite after call).conns =
        after.conns.map fun conn => receive server.stack conn call := by
      rw [← sent.stack]
      rfl
    rw [one, sent.conns, List.map_map]
    refine List.map_congr_left fun conn _ => ?_
    rw [afterCalls, List.foldl_append]
    rfl

theorem sends_nothing (server : ZedisServer) (fd : Nat) :
    Sends server fd server.conns (some (0, server)) := by
  intro rc next same
  cases same
  exact ⟨rfl, [], .refl server, nofun⟩

/-- One call. -/
theorem sends_call (server : ZedisServer) {fd : Nat} {call : QueueCall} (own : call.fd = fd) :
    Sends server fd server.conns (some (0, queueWrite server call)) := by
  intro rc next same
  cases same
  refine ⟨rfl, [call], (Sent.refl server).queue call, fun other member => ?_⟩
  rw [List.mem_singleton.mp member, own]

/-- The stores do not matter. -/
theorem Sends.stores {before : ZedisServer} {result : Option (Int × ZedisServer)}
    (sends : Sends before fd conns result) (stack : before.stack = server.stack)
    (calls : before.calls = server.calls) : Sends server fd conns result := by
  intro rc after returned
  obtain ⟨zero, made, sent, own⟩ := sends rc after returned
  refine ⟨zero, made, ⟨sent.stack.trans stack, ?_, ?_⟩, own⟩
  · rw [sent.conns, stack]
  · rw [sent.calls, calls]

theorem Sends.bind {α : Type} {found : Option α} {f : α → Option (Int × ZedisServer)}
    (each : ∀ a, Sends server fd conns (f a)) : Sends server fd conns (found.bind f) := by
  intro rc after returned
  obtain ⟨a, -, returned⟩ := Option.bind_eq_some_iff.mp returned
  exact each a rc after returned

theorem Sends.map {α : Type} {found : Option α} {f : α → Int × ZedisServer}
    (each : ∀ a, Sends server fd conns (some (f a))) : Sends server fd conns (found.map f) := by
  rw [Option.map_eq_bind]
  exact .bind each

/-- A reply that is formatted is sent by one call, or not at all. -/
theorem sends_formatted (server : ZedisServer) (fd size : Nat) (reply : Formatted) :
    Sends server fd server.conns (some (sendFormatted server fd size reply)) := by
  unfold sendFormatted
  split
  · split
    · exact sends_call server rfl
    · exact sends_nothing server fd
  · exact sends_nothing server fd

theorem sends_printed (server : ZedisServer) (fd size : Nat) (text : Bytes) :
    Sends server fd server.conns (some (sendPrinted server fd size text)) := by
  unfold sendPrinted
  split
  · exact sends_call server rfl
  · exact sends_nothing server fd

theorem sends_range (server : ZedisServer) (fd : Nat) (failed : Bytes) (range : Option Bytes) :
    Sends server fd server.conns (some (sendRange server fd failed range)) := by
  cases range with
  | none => exact sends_formatted server fd 512 _
  | some text => exact sends_call server rfl

/-- A call for each of some receivers. -/
theorem Sent.foldl (call : Conn → QueueCall) (receivers : List Conn) :
    ∀ {after : ZedisServer} {calls : List QueueCall}, Sent server conns after calls →
      Sent server conns (receivers.foldl (fun server conn => queueWrite server (call conn)) after)
        (calls ++ receivers.map call) := by
  induction receivers with
  | nil =>
    intro after calls sent
    rw [List.map_nil, List.append_nil]
    exact sent
  | cons conn receivers ih =>
    intro after calls sent
    have rest := ih (sent.queue (call conn))
    rw [List.append_assoc] at rest
    exact rest

/-- The calls of a broadcast. -/
theorem Sent.broadcast (server : ZedisServer) (channel payload : Bytes) :
    ∃ calls, Sent server server.conns (serverBroadcastChannel server channel payload) calls := by
  unfold serverBroadcastChannel
  dsimp only
  split
  · exact ⟨[], .refl server⟩
  · split
    · exact ⟨[], .refl server⟩
    · exact ⟨_, (Sent.refl server).foldl _ _⟩

/-- A `PUBLISH` sends to its own connection, or the ring takes its message. -/
theorem publishCommand_sends (server : ZedisServer) (fd : Nat) (cmd : List (RespValue Bytes)) :
    Sends server fd server.conns (publishCommand server fd cmd) ∨
      ∃ channel message ring after calls, cmdBulk cmd 1 = some channel ∧ cmdBulk cmd 2 = some message ∧
        zedisRingPublish server.ring (channelName channel) message = some ring ∧
        publishCommand server fd cmd = some (0, after) ∧ Sent server server.conns after calls := by
  unfold publishCommand
  split
  · rename_i channel message first second
    dsimp only
    cases taken : zedisRingPublish server.ring (channelName channel) message with
    | none => exact Or.inl (sends_formatted server fd 512 _)
    | some ring =>
      -- The reply follows the pushes.
      obtain ⟨pushes, sent⟩ := Sent.broadcast { server with ring := ring } (channelName channel) message
      dsimp only
      rw [replyInteger_eq]
      obtain ⟨stack, conns, calls⟩ := sent.queue
        (encodedCall fd 64 (.integer (wrap64 (server.conns.filter (receives (channelName channel))).length)))
      exact Or.inr ⟨channel, message, ring, _, _, first, second, taken, rfl, stack, conns, calls⟩
  · exact Or.inl (sends_formatted server fd 512 _)

theorem orderCommand_sends (server : ZedisServer) (fd : Nat) (cmd : List (RespValue Bytes))
    (wrongNumber invalid : Bytes)
    (place : OrderBook.ZedisOrderBook → Int → Int → Option OrderBook.ZedisOrderBook) :
    Sends server fd server.conns (orderCommand wrongNumber invalid place server fd cmd) := by
  unfold orderCommand
  split
  · split
    · split
      · exact sends_formatted server fd 512 _
      · rename_i book _
        exact (sends_formatted { server with book := book } fd 64 _).stores rfl rfl
    · exact sends_formatted server fd 512 _
  · exact sends_formatted server fd 512 _

theorem rangeCommand_sends (server : ZedisServer) (fd : Nat) (cmd : List (RespValue Bytes))
    (wrongNumber failed : Bytes)
    (range : ZedisServer → Bytes → Int → Int → Nat → Option (Option Bytes)) :
    Sends server fd server.conns (rangeCommand wrongNumber failed range server fd cmd) := by
  unfold rangeCommand
  split
  · split
    · exact .map fun text => sends_range server fd failed text
    · exact sends_formatted server fd 512 _
  · exact sends_formatted server fd 512 _

theorem subscribeCommand_sends (server : ZedisServer) (fd : Nat) (cmd : List (RespValue Bytes)) :
    Sends server fd ((cmdBulk cmd 1).elim server.conns fun channel =>
      changeConn server.conns fd (withChannel channel)) (subscribeCommand server fd cmd) := by
  unfold subscribeCommand
  cases cmdBulk cmd 1 with
  | none => exact sends_formatted server fd 512 _
  | some channel =>
    exact (sends_printed { server with
      conns := changeConn server.conns fd (withChannel channel) } fd 512 _).stores rfl rfl

theorem pingCommand_sends (server : ZedisServer) (fd : Nat) (cmd : List (RespValue Bytes)) :
    Sends server fd server.conns (pingCommand server fd cmd) := by
  unfold pingCommand
  split
  · exact sends_formatted server fd 512 _
  · split
    · exact sends_formatted server fd 4096 _
    · exact sends_nothing server fd

theorem echoCommand_sends (server : ZedisServer) (fd : Nat) (cmd : List (RespValue Bytes)) :
    Sends server fd server.conns (echoCommand server fd cmd) := by
  unfold echoCommand
  split
  · exact sends_formatted server fd 4096 _
  · exact sends_formatted server fd 512 _

theorem setCommand_sends (server : ZedisServer) (fd : Nat) (cmd : List (RespValue Bytes)) :
    Sends server fd server.conns (setCommand server fd cmd) := by
  unfold setCommand
  split
  · refine .map fun stored => ?_
    dsimp only
    split
    · exact (sends_formatted { server with kv := stored.2 } fd 512 _).stores rfl rfl
    · exact (sends_formatted { server with kv := stored.2 } fd 512 _).stores rfl rfl
  · exact sends_formatted server fd 512 _

theorem getCommand_sends (server : ZedisServer) (fd : Nat) (cmd : List (RespValue Bytes)) :
    Sends server fd server.conns (getCommand server fd cmd) := by
  unfold getCommand
  split
  · refine .map fun found => ?_
    cases found with
    | none => exact sends_formatted server fd 64 _
    | some hit => exact sends_formatted server fd 4096 _
  · exact sends_formatted server fd 512 _

theorem delCommand_sends (server : ZedisServer) (fd : Nat) (cmd : List (RespValue Bytes)) :
    Sends server fd server.conns (delCommand server fd cmd) := by
  unfold delCommand
  split
  · exact .map fun left => (sends_formatted { server with kv := left.2 } fd 64 _).stores rfl rfl
  · exact sends_formatted server fd 512 _

theorem bookCommand_sends (server : ZedisServer) (fd : Nat) (cmd : List (RespValue Bytes)) :
    Sends server fd server.conns (bookCommand server fd cmd) := by
  unfold bookCommand
  split
  · split
    · split
      · exact sends_formatted server fd 512 _
      · exact sends_printed server fd 128 _
    · exact sends_formatted server fd 512 _
  · exact sends_formatted server fd 512 _

theorem zaddCommand_sends (server : ZedisServer) (fd : Nat) (cmd : List (RespValue Bytes)) :
    Sends server fd server.conns (zaddCommand server fd cmd) := by
  unfold zaddCommand
  split
  · split
    · exact sends_formatted server fd 512 _
    · refine .bind fun prev => .map fun added => ?_
      dsimp only
      split
      · exact (sends_formatted { server with zsets := added.2 } fd 512 _).stores rfl rfl
      · exact (sends_formatted { server with zsets := added.2 } fd 64 _).stores rfl rfl
  · exact sends_formatted server fd 512 _

theorem zscoreCommand_sends (server : ZedisServer) (fd : Nat) (cmd : List (RespValue Bytes)) :
    Sends server fd server.conns (zscoreCommand server fd cmd) := by
  unfold zscoreCommand
  split
  · refine .map fun found => ?_
    cases found with
    | none => exact sends_formatted server fd 64 _
    | some score =>
      dsimp only
      split
      · exact sends_formatted server fd 4096 _
      · exact sends_nothing server fd
  · exact sends_formatted server fd 512 _

theorem lpushCommand_sends (server : ZedisServer) (fd : Nat) (cmd : List (RespValue Bytes)) :
    Sends server fd server.conns (lpushCommand server fd cmd) := by
  unfold lpushCommand
  split
  · refine .bind fun pushed => ?_
    dsimp only
    split
    · exact (sends_formatted { server with lists := pushed.2.1, log := pushed.2.2 } fd 512 _).stores
        rfl rfl
    · exact .map fun len =>
        (sends_formatted { server with lists := pushed.2.1, log := pushed.2.2 } fd 64 _).stores rfl rfl
  · exact sends_formatted server fd 512 _

theorem llenCommand_sends (server : ZedisServer) (fd : Nat) (cmd : List (RespValue Bytes)) :
    Sends server fd server.conns (llenCommand server fd cmd) := by
  unfold llenCommand
  split
  · exact .map fun len => sends_formatted server fd 64 _
  · exact sends_formatted server fd 512 _

/-- **Every handler but those of `PUBLISH`, `SUBSCRIBE` and `QUIT` only sends.** -/
theorem CommandName.sends (command : CommandName) (server : ZedisServer) (fd : Nat)
    (cmd : List (RespValue Bytes)) (publish : command ≠ .publish) (subscribe : command ≠ .subscribe)
    (quit : command ≠ .quit) :
    Sends server fd server.conns (command.fn server fd cmd) := by
  cases command with
  | ping => exact pingCommand_sends server fd cmd
  | echo => exact echoCommand_sends server fd cmd
  | set => exact setCommand_sends server fd cmd
  | get => exact getCommand_sends server fd cmd
  | bid => exact orderCommand_sends server fd cmd _ _ _
  | ask => exact orderCommand_sends server fd cmd _ _ _
  | book => exact bookCommand_sends server fd cmd
  | del => exact delCommand_sends server fd cmd
  | zadd => exact zaddCommand_sends server fd cmd
  | zscore => exact zscoreCommand_sends server fd cmd
  | zrange =>
    exact rangeCommand_sends server fd cmd _ _ fun server => zedisZsetRegRange server.zsets
  | lpush => exact lpushCommand_sends server fd cmd
  | lrange =>
    exact rangeCommand_sends server fd cmd _ _ fun server => zedisListRegLrange server.lists server.log
  | llen => exact llenCommand_sends server fd cmd
  | publish => exact absurd rfl publish
  | subscribe => exact absurd rfl subscribe
  | quit => exact absurd rfl quit

end Handlers

/-! ### Commands -/

section Commands

variable {server after : ZedisServer} {fd : Nat} {cmd : RespValue Bytes} {rc : Int}

theorem subscribing_of_other (other : commandOf cmd ≠ some .subscribe) :
    subscribing server fd cmd = server.conns := by
  unfold subscribing subscribeArg
  split
  · rename_i channel named
    split at named
    · rename_i isSubscribe
      exact absurd isSubscribe other
    · cases named
  · rfl

theorem subscribing_of_subscribe {elements : List (RespValue Bytes)}
    (named : commandOf (.array elements) = some .subscribe) :
    subscribing server fd (.array elements) = (cmdBulk elements 1).elim server.conns
      fun channel => changeConn server.conns fd (withChannel channel) := by
  have arg : subscribeArg (.array elements) = cmdBulk elements 1 := by
    rw [subscribeArg, named]
    rfl
  rw [subscribing, arg]
  cases cmdBulk elements 1 with
  | none => rfl
  | some channel => rfl

theorem counted_subscribing (inv : ServerInv server) {conn : Conn}
    (member : conn ∈ subscribing server fd cmd) : Counted conn := by
  unfold subscribing at member
  split at member
  · obtain ⟨old, inside, ⟨-, rfl⟩ | ⟨-, rfl⟩⟩ := mem_changeConn member
    · exact ⟨(inv.counted old inside).sent, (inv.counted old inside).room⟩
    · exact inv.counted conn inside
  · exact inv.counted conn member

/-- A value that names no command of the table gets one error, or nothing. -/
theorem serverHandleCommand_sends_unknown (none : commandOf cmd = none) :
    Sends server fd server.conns (serverHandleCommand server fd cmd) := by
  cases cmd with
  | array elements =>
    cases elements with
    | nil => exact sends_nothing server fd
    | cons element elements =>
      cases named : cmdBulk (element :: elements) 0 with
      | none =>
        simp only [serverHandleCommand, named]
        exact sends_formatted server fd 512 _
      | some name =>
        rw [commandOf, named, Option.bind_some] at none
        rw [serverHandleCommand_named fd named, none, Option.elim_none]
        exact sends_printed server fd 512 _
  | _ => exact sends_formatted server fd 512 _

/-- The ring takes the message of the command. -/
def PublishTaken (server : ZedisServer) (cmd : RespValue Bytes) : Prop :=
  ∃ channel message ring, publishArgs cmd = some (channel, message) ∧
    zedisRingPublish server.ring (channelName channel) message = some ring

/-- **The connections after a command**: `QUIT` destroys its own, every other command sends, and to its
own connection only unless it is a `PUBLISH` that the ring takes. -/
theorem serverHandleCommand_conns (runs : serverHandleCommand server fd cmd = some (rc, after)) :
    commandOf cmd = some .quit ∧ rc = 1 ∧ after = connDestroy server fd ∨
      commandOf cmd ≠ some .quit ∧ rc = 0 ∧
        ∃ calls, Sent server (subscribing server fd cmd) after calls ∧
          ((∀ call ∈ calls, call.fd = fd) ∨ PublishTaken server cmd) := by
  have own : ∀ {conns : List Conn},
      (rc = 0 ∧ ∃ calls, Sent server conns after calls ∧ ∀ call ∈ calls, call.fd = fd) →
      rc = 0 ∧ ∃ calls, Sent server conns after calls ∧
        ((∀ call ∈ calls, call.fd = fd) ∨ PublishTaken server cmd) :=
    fun ⟨zero, calls, sent, own⟩ => ⟨zero, calls, sent, Or.inl own⟩
  cases known : commandOf cmd with
  | none =>
    refine Or.inr ⟨nofun, ?_⟩
    rw [subscribing_of_other (by rw [known]; exact nofun)]
    exact own (serverHandleCommand_sends_unknown known rc after runs)
  | some command =>
    cases cmd with
    | array elements =>
      rw [serverHandleCommand_known fd known] at runs
      by_cases isQuit : command = .quit
      · subst isQuit
        cases runs
        exact Or.inl ⟨rfl, rfl, rfl⟩
      refine Or.inr ⟨fun same => isQuit (Option.some.inj same), ?_⟩
      by_cases isSubscribe : command = .subscribe
      · subst isSubscribe
        rw [subscribing_of_subscribe known]
        exact own (subscribeCommand_sends server fd elements rc after runs)
      rw [subscribing_of_other (by rw [known]; exact fun same => isSubscribe (Option.some.inj same))]
      by_cases isPublish : command = .publish
      · subst isPublish
        rcases publishCommand_sends server fd elements with
          sends | ⟨channel, message, ring, after', calls, first, second, taken, ends, sent⟩
        · exact own (sends rc after runs)
        · cases ends.symm.trans runs
          have args : publishArgs (.array elements) = some (channel, message) := by
            have first' : cmdBulk (elementsOf (.array elements)) 1 = some channel := first
            have second' : cmdBulk (elementsOf (.array elements)) 2 = some message := second
            rw [publishArgs, known, first', second']
          exact ⟨rfl, calls, sent, Or.inr ⟨channel, message, ring, args, taken⟩⟩
      · exact own (command.sends server fd elements isPublish isSubscribe isQuit rc after runs)
    | _ => cases known

end Commands

end Zedis.Server

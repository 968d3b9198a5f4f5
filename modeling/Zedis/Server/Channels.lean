/-
**Which connections a message goes to.**

`SUBSCRIBE` copies at most 63 bytes of the channel name, and so does `PUBLISH`; the copies are compared
up to their first NUL and without regard to the case of `A` to `Z`. So two names are confused exactly if
these cut and lowered copies (`foldName`) are equal, and on a ring that is full no message goes out at
all. A connection without room for the message, or whose socket fails, does not take it (`Takes`).
`channel_isolation_iff` turns this into the condition under which a `PUBLISH` reaches exactly the
connections that gave its channel name, in every state of every run.
-/

import Zedis.Server.Conns

namespace Zedis.Server

open Zedis.Lib Zedis.Resp Zedis.Connection Zedis.RingBuffer

/-- The names after an event, for those before: a new connection has none. -/
def nameStep (names : Nat → Option Bytes) : ServerEvent → Nat → Option Bytes
  | .accept fd _ _ _ => Function.update names fd none
  | .command fd cmd =>
    (subscribeArg cmd).elim names fun name => Function.update names fd (some name)
  | .writable _ => names
  | .destroy _ => names

/-- **The name that the connection with a descriptor last gave to `SUBSCRIBE`.** -/
def lastNames (events : List ServerEvent) : Nat → Option Bytes := events.foldl nameStep fun _ => none

/-- The name as it is compared: cut to 63 bytes and at its first NUL, in lower case. -/
def foldName (name : Bytes) : Bytes := (cstr (channelName name)).map toLower

/-- The connection is open, the message fits, and the socket does not fail when it is flushed. -/
def Takes (conn : Conn) (message : Bytes) : Prop :=
  conn.closed = false ∧ conn.writeLen + message.length ≤ zedisConnWriteSize ∧
    flushFails conn.socket.answers (conn.writeLen + message.length - conn.writeSent) = false

instance (conn : Conn) (message : Bytes) : Decidable (Takes conn message) :=
  inferInstanceAs (Decidable (_ ∧ _ ∧ _))

/-- The command sends the message to the connection: it calls `conn_queue_write` with it, after some
other calls, and this returns `0`. -/
def IsSent (server : ZedisServer) (fd : Nat) (cmd : RespValue Bytes) (channel message : Bytes)
    (conn : Conn) : Prop :=
  ∃ rc after earlier later, serverHandleCommand server fd cmd = some (rc, after) ∧
    callsSince server after =
      earlier ++ pushCall (cstr (channelName channel)) message conn :: later ∧
    (connQueueWrite (afterCalls server.stack earlier conn)
      ((pushCall (cstr (channelName channel)) message conn).data server.stack)).1 = 0

/-- **Isolation of a `PUBLISH`**: an open connection is sent the message if and only if the name it last
gave is the channel. -/
def SentByName (events : List ServerEvent) (server : ZedisServer) (fd : Nat) (cmd : RespValue Bytes)
    (channel message : Bytes) : Prop :=
  ∀ conn ∈ server.conns, conn.closed = false →
    (IsSent server fd cmd channel message conn ↔ lastNames events conn.fd = some channel)

/-- The condition: a message that the ring takes is also taken by every open connection with this name,
and by none with another name that is compared as equal; one that is refused finds no open connection
with this name. -/
def NamesApart (capacity : Nat) (events : List ServerEvent) (server : ZedisServer)
    (channel message : Bytes) : Prop :=
  ∀ conn ∈ server.conns, conn.closed = false → ∀ name, lastNames events conn.fd = some name →
    if message.length ≤ zedisRingMsgMax ∧ events.countP publishes < capacity then
      foldName name = foldName channel →
        (Takes conn (encode (published (cstr (channelName channel)) message)) ↔ name = channel)
    else name ≠ channel

/-! ### Names and connections -/

section Names

variable {conn after : Conn} {name : Option Bytes}

/-- The connection holds the copy of a name, or of none. -/
structure HasName (conn : Conn) (name : Option Bytes) : Prop where
  subscribed : conn.subscribed = name.isSome
  copied : ∀ given, name = some given → conn.subscribeChannel = channelName given

theorem HasName.same (has : HasName conn name) (same : SameReader conn after) : HasName after name :=
  ⟨same.subscribed.trans has.subscribed,
    fun given isName => same.channel.trans (has.copied given isName)⟩

/-- **A connection receives a channel if their names are compared as equal.** -/
theorem HasName.receives_iff (has : HasName conn name) (channel : Bytes) :
    receives (channelName channel) conn = true ↔
      ∃ given, name = some given ∧ foldName given = foldName channel := by
  rw [receives, has.subscribed]
  cases name with
  | none => simp
  | some given =>
    rw [has.copied given rfl, Option.isSome_some, Bool.true_and, strCaseEqual, Bool.and_eq_true,
      beq_iff_eq, beq_iff_eq]
    constructor
    · exact fun ⟨_, same⟩ => ⟨given, rfl, same⟩
    · rintro ⟨_, isName, same⟩
      cases isName
      refine ⟨?_, same⟩
      have lengths := congrArg List.length same
      rw [foldName, foldName, List.length_map, List.length_map] at lengths
      exact lengths.symm

end Names

/-! ### Names over a run -/

section Runs

variable {server next : ZedisServer} {past : List ServerEvent} {event : ServerEvent}

/-- Every connection holds the copy of the name it last gave. -/
def Named (past : List ServerEvent) (server : ZedisServer) : Prop :=
  ∀ conn ∈ server.conns, HasName conn (lastNames past conn.fd)

theorem lastNames_snoc (past : List ServerEvent) (event : ServerEvent) :
    lastNames (past ++ [event]) = nameStep (lastNames past) event := by
  rw [lastNames, List.foldl_append]
  rfl

/-- The names when a command makes its first call. -/
theorem hasName_subscribing {names : Nat → Option Bytes}
    (named : ∀ conn ∈ server.conns, HasName conn (names conn.fd)) (fd : Nat) (cmd : RespValue Bytes) :
    ∀ conn ∈ subscribing server fd cmd, HasName conn (nameStep names (.command fd cmd) conn.fd) := by
  intro conn member
  unfold subscribing at member
  rw [nameStep]
  cases given : subscribeArg cmd with
  | none =>
    rw [given] at member
    exact named conn member
  | some name =>
    rw [given] at member
    rw [Option.elim_some]
    obtain ⟨old, inside, ⟨isTarget, rfl⟩ | ⟨other, rfl⟩⟩ := mem_changeConn member
    · have sameFd : (withChannel name old).fd = fd := isTarget
      rw [sameFd, Function.update_self]
      exact ⟨rfl, fun _ same => congrArg channelName (Option.some.inj same)⟩
    · rw [Function.update_of_ne other]
      exact named conn inside

/-- The names after a command. -/
theorem hasName_after {names : Nat → Option Bytes} {fd : Nat} {cmd : RespValue Bytes} {rc : Int}
    {after : ZedisServer} (inv : ServerInv server)
    (named : ∀ conn ∈ server.conns, HasName conn (names conn.fd))
    (runs : serverHandleCommand server fd cmd = some (rc, after)) :
    ∀ conn ∈ after.conns, HasName conn (nameStep names (.command fd cmd) conn.fd) := by
  intro conn member
  rcases serverHandleCommand_conns runs with ⟨isQuit, -, rfl⟩ | ⟨-, -, calls, sent, -⟩
  · have other : subscribing server fd cmd = server.conns :=
      subscribing_of_other (by rw [isQuit]; exact nofun)
    exact hasName_subscribing named fd cmd conn (other ▸ (List.mem_filter.mp member).1)
  · rw [sent.conns] at member
    obtain ⟨old, inside, rfl⟩ := List.mem_map.mp member
    have same := afterCalls_same server.stack (counted_subscribing inv inside) calls
    rw [same.fd]
    exact (hasName_subscribing named fd cmd old inside).same same

theorem Named.step (named : Named past server) (inv : ServerInv server)
    (taken : serverStep server event = some next) : Named (past ++ [event]) next := by
  unfold Named
  rw [lastNames_snoc]
  cases event with
  | accept fd parser writeBuf answers =>
    obtain ⟨free, same⟩ := Option.ite_none_left_eq_some.mp taken
    cases same
    intro conn member
    rcases List.mem_cons.mp member with rfl | old
    · change HasName _ (Function.update (lastNames past) fd none fd)
      rw [Function.update_self]
      exact ⟨rfl, nofun⟩
    · have other : conn.fd ≠ fd := fun same =>
        free (connected_iff.mpr (same ▸ List.mem_map_of_mem old))
      change HasName conn (Function.update (lastNames past) fd none conn.fd)
      rw [Function.update_of_ne other]
      exact named conn old
  | command fd cmd =>
    obtain ⟨-, same⟩ := Option.ite_none_right_eq_some.mp taken
    obtain ⟨⟨rc, after⟩, runs, rfl⟩ := Option.map_eq_some_iff.mp same
    exact hasName_after inv named runs
  | writable fd =>
    rw [serverStep] at taken
    split at taken
    · cases taken
    · rename_i old found
      have inside := List.mem_of_find?_eq_some found
      have isFd := List.find?_some (p := fun conn : Conn => conn.fd == fd) found
      have same := (connFlush_flushed (inv.counted old inside)).same
      have kept : ∀ conn ∈ changeConn server.conns fd fun _ => (connOnWritable old).2,
          HasName conn (lastNames past conn.fd) := by
        intro conn member
        obtain ⟨before, inside', ⟨-, rfl⟩ | ⟨-, rfl⟩⟩ := mem_changeConn member
        · have sameFd : (connOnWritable old).2.fd = old.fd := same.fd
          rw [sameFd]
          exact (named old inside).same same
        · exact named conn inside'
      cases taken
      split
      · exact fun conn member => kept conn (List.mem_filter.mp member).1
      · exact kept
  | destroy fd =>
    obtain ⟨-, same⟩ := Option.ite_none_right_eq_some.mp taken
    cases same
    exact fun conn member => named conn (List.mem_filter.mp member).1

theorem named_of_run {config : ZedisConfig} {mapped : Option (Nat → UInt8)} {stack : Nat → UInt8}
    {start : ZedisServer} {events : List ServerEvent}
    (made : zedisCreate config mapped stack = some start)
    (run : Run serverStep Always start events server) : Named events server := by
  have created := zedisCreate_created made
  have first : ServerInv start ∧ Named [] start :=
    ⟨created.inv, by rw [Named, created.conns]; exact nofun⟩
  have kept := run.history (fun past server => ServerInv server ∧ Named past server)
    (fun _ _ _ _ ⟨inv, named⟩ _ taken => ⟨inv.step taken, named.step inv taken⟩) first
  rw [List.nil_append] at kept
  exact kept.2

end Runs

/-! ### A `PUBLISH` -/

section Publish

variable {server : ZedisServer} {fd : Nat} {cmd : RespValue Bytes} {channel message : Bytes}

/-- A push that is made is one of the broadcast, and no call before it is for its connection. -/
theorem pushes_split (nodup : (server.conns.map Conn.fd).Nodup) {conn : Conn}
    (member : conn ∈ server.conns) {payload : Bytes} {earlier later : List QueueCall} {reply : QueueCall}
    (own : reply.push = false)
    (calls : (server.conns.filter (receives channel)).map (pushCall payload message) ++ [reply] =
      earlier ++ pushCall payload message conn :: later) :
    receives channel conn = true ∧ ∀ call ∈ earlier, conn.fd ≠ call.fd := by
  -- The reply is the last call, and no push.
  obtain ⟨rest, rfl⟩ : ∃ rest, later = rest ++ [reply] := by
    rcases List.eq_nil_or_concat' later with rfl | ⟨rest, last, rfl⟩
    · have same := (List.cons.inj (List.append_inj_right' calls rfl)).1
      cases own.symm.trans (congrArg QueueCall.push same)
    · rw [← List.cons_append, ← List.append_assoc] at calls
      exact ⟨rest, by rw [(List.cons.inj (List.append_inj_right' calls rfl)).1]⟩
  rw [← List.cons_append, ← List.append_assoc] at calls
  have pushes := List.append_inj_left' calls rfl
  have nodup' : (((server.conns.filter (receives channel)).map (pushCall payload message)).map
      QueueCall.fd).Nodup := by
    rw [List.map_map]
    exact nodup.sublist (List.filter_sublist.map _)
  constructor
  · have pushed : pushCall payload message conn ∈
        (server.conns.filter (receives channel)).map (pushCall payload message) := by
      rw [pushes]
      exact List.mem_append_right _ List.mem_cons_self
    -- The push is that of a connection with the same descriptor, which is this one.
    obtain ⟨other, inside, same⟩ := List.mem_map.mp pushed
    obtain ⟨inside, receiving⟩ := List.mem_filter.mp inside
    have isConn := List.inj_on_of_nodup_map nodup inside member (congrArg QueueCall.fd same)
    exact isConn ▸ receiving
  · intro call before same
    rw [pushes, List.map_append, List.nodup_append] at nodup'
    exact nodup'.2.2 call.fd (List.mem_map_of_mem before) conn.fd
      (List.mem_map_of_mem (f := QueueCall.fd) List.mem_cons_self) same.symm

/-- A push is accepted exactly if the connection takes it. -/
theorem push_accepted_iff (stack : Nat → UInt8) (channel payload : Bytes) (conn : Conn) :
    (connQueueWrite conn ((pushCall channel payload conn).data stack)).1 = 0 ↔
      Takes conn (encode (published channel payload)) := by
  have text : (pushCall channel payload conn).data stack = encode (published channel payload) :=
    data_of_front List.prefix_rfl rfl stack
  rw [text, connQueueWrite_zero_iff, Takes]

/-- **Who is sent the message.** -/
theorem isSent_iff (inv : ServerInv server) (args : publishArgs cmd = some (channel, message))
    {conn : Conn} (member : conn ∈ server.conns) :
    IsSent server fd cmd channel message conn ↔
      (∃ ring, zedisRingPublish server.ring (channelName channel) message = some ring) ∧
        receives (channelName channel) conn = true ∧
        Takes conn (encode (published (cstr (channelName channel)) message)) := by
  cases taken : zedisRingPublish server.ring (channelName channel) message with
  | none =>
    obtain ⟨after, ends, calls⟩ := publish_refused fd args taken
    constructor
    · rintro ⟨_, _, earlier, later, ends', sent, -⟩
      cases ends.symm.trans ends'
      have pushed : pushCall (cstr (channelName channel)) message conn ∈ callsSince server after := by
        rw [sent]
        exact List.mem_append_right _ List.mem_cons_self
      rw [calls, List.mem_singleton] at pushed
      cases congrArg QueueCall.push pushed
    · rintro ⟨⟨_, isSome⟩, -⟩
      cases isSome
  | some ring =>
    obtain ⟨after, ends, calls⟩ := publish_taken inv fd args taken
    constructor
    · rintro ⟨_, _, earlier, later, ends', sent, accepted⟩
      cases ends.symm.trans ends'
      obtain ⟨receiving, others⟩ := pushes_split inv.fds member rfl (calls.symm.trans sent)
      rw [afterCalls_of_others server.stack others, push_accepted_iff] at accepted
      exact ⟨⟨ring, rfl⟩, receiving, accepted⟩
    · rintro ⟨-, receiving, takes⟩
      obtain ⟨before, behind, split⟩ :=
        List.append_of_mem (List.mem_filter.mpr ⟨member, receiving⟩)
      have sent := calls
      nth_rewrite 1 [split] at sent
      rw [List.map_append, List.map_cons, List.append_assoc, List.cons_append] at sent
      refine ⟨0, after, _, _, ends, sent, ?_⟩
      obtain ⟨-, others⟩ := pushes_split inv.fds member rfl (calls.symm.trans sent)
      rw [afterCalls_of_others server.stack others, push_accepted_iff]
      exact takes

/-- **A `PUBLISH` reaches exactly the connections that gave its name, if and only if they take it and no
other name is confused with it, or it is refused and nobody gave it.** -/
theorem channel_isolation_iff {config : ZedisConfig} {mapped : Option (Nat → UInt8)}
    {stack : Nat → UInt8} {start : ZedisServer} {events : List ServerEvent}
    (made : zedisCreate config mapped stack = some start)
    (run : Run serverStep Always start events server) (fd : Nat)
    (args : publishArgs cmd = some (channel, message)) :
    SentByName events server fd cmd channel message ↔
      NamesApart (nextPowerOfTwo config.ringCapacity.toUInt64).toNat events server channel message := by
  have counting := counting_of_run made run
  have named := named_of_run made run
  have taken : (∃ ring, zedisRingPublish server.ring (channelName channel) message = some ring) ↔
      message.length ≤ zedisRingMsgMax ∧
        events.countP publishes < (nextPowerOfTwo config.ringCapacity.toUInt64).toNat := by
    constructor
    · rintro ⟨ring, taken⟩
      have short := (zedisRingPublish_eq_some taken).1
      exact ⟨short, (counting.ring.accepts_iff short).mp ⟨ring, taken⟩⟩
    · exact fun ⟨short, room⟩ => (counting.ring.accepts_iff short).mpr room
  refine forall_congr' fun conn => forall_congr' fun member => forall_congr' fun _ => ?_
  rw [isSent_iff counting.inv args member, taken, (named conn member).receives_iff]
  cases lastNames events conn.fd with
  | none => simp
  | some name =>
    split
    · rename_i isTaken
      simp only [Option.some.injEq]
      constructor
      · rintro sent _ rfl folded
        exact ⟨fun takes => sent.mp ⟨isTaken, ⟨name, rfl, folded⟩, takes⟩, fun same => (sent.mpr same).2.2⟩
      · intro apart
        constructor
        · rintro ⟨-, ⟨_, rfl, folded⟩, takes⟩
          exact (apart name rfl folded).mp takes
        · rintro rfl
          exact ⟨isTaken, ⟨name, rfl, rfl⟩, (apart name rfl rfl).mpr rfl⟩
    · rename_i refused
      simp only [refused, Option.some.injEq, false_and, false_iff]
      constructor
      · rintro differs _ rfl
        exact differs
      · exact fun differs => differs name rfl

/-- Client 5 subscribes to a channel, client 6 is there to publish. -/
def sampleSubscription (name : Bytes) : List ServerEvent :=
  [sampleClient [], sampleOther, .command 5 (bulks [ascii "SUBSCRIBE", name])]

/-- `PUBLISH` of `m`. -/
def samplePublishTo (channel : Bytes) : RespValue Bytes := bulks [ascii "PUBLISH", channel, ascii "m"]

/-- A message to a subscriber with an empty buffer. -/
theorem channel_isolation_iff_news : ∃ start server conn,
    zedisCreate sampleConfig (some fun _ => 0) (fun _ => 0) = some start ∧
      Run serverStep Always start (sampleSubscription (ascii "news")) server ∧
      conn ∈ server.conns ∧ conn.closed = false ∧
      lastNames (sampleSubscription (ascii "news")) conn.fd = some (ascii "news") ∧
      SentByName (sampleSubscription (ascii "news")) server 6 (samplePublishTo (ascii "news"))
        (ascii "news") (ascii "m") := by
  have shown : (sampleServer (sampleSubscription (ascii "news"))).map (fun server =>
      (server.conns.map fun conn => (conn.fd, conn.closed), server.conns.all fun conn =>
        Takes conn (encode (published (cstr (channelName (ascii "news"))) (ascii "m"))))) =
      some ([(6, false), (5, false)], true) := by decide +kernel
  obtain ⟨server, returned, fields⟩ := Option.map_eq_some_iff.mp shown
  obtain ⟨fds, allTake⟩ := Prod.mk.inj fields
  obtain ⟨start, made, replayed⟩ := Option.bind_eq_some_iff.mp returned
  have run : Run serverStep Always start (sampleSubscription (ascii "news")) server :=
    Run.of_replay (fun _ _ _ => trivial) replayed
  obtain ⟨conn, member, same⟩ : ∃ conn ∈ server.conns, (conn.fd, conn.closed) = (5, false) :=
    List.mem_map.mp (show (5, false) ∈ server.conns.map fun conn => (conn.fd, conn.closed) by
      rw [fds]; decide)
  obtain ⟨isFive, isOpen⟩ := Prod.mk.inj same
  refine ⟨start, server, conn, made, run, member, isOpen, by rw [isFive]; decide,
    (channel_isolation_iff made run 6 (by decide)).mpr fun other inside _ name given => ?_⟩
  -- Only descriptor 5 has a name.
  have names : lastNames (sampleSubscription (ascii "news")) =
      Function.update (Function.update (Function.update (fun _ => none) 5 none) 6 none) 5
        (some (ascii "news")) := rfl
  have isNews : name = ascii "news" := by
    simp only [names, Function.update_apply] at given
    split at given
    · exact (Option.some.inj given).symm
    · simp at given
  rw [if_pos (by decide)]
  exact fun _ => ⟨fun _ => isNews, fun _ => of_decide_eq_true (List.all_eq_true.mp allTake other inside)⟩

/-- **A message on `news` goes to a subscriber of `News`.** -/
theorem case_confuses_channels : ∃ server conn, Reachable server ∧
    sampleServer (sampleSubscription (ascii "News")) = some server ∧ conn ∈ server.conns ∧
    conn.closed = false ∧ lastNames (sampleSubscription (ascii "News")) conn.fd = some (ascii "News") ∧
    Parsed (samplePublishTo (ascii "news")) ∧
    IsSent server 6 (samplePublishTo (ascii "news")) (ascii "news") (ascii "m") conn ∧
    ¬ SentByName (sampleSubscription (ascii "News")) server 6 (samplePublishTo (ascii "news"))
      (ascii "news") (ascii "m") := by
  have shown : ((sampleServer (sampleSubscription (ascii "News"))).map fun server =>
      ((connOf server 5).map fun conn => (conn.fd, conn.closed, receives (ascii "news") conn,
          decide (Takes conn (encode (published (ascii "news") (ascii "m"))))),
        (zedisRingPublish server.ring (ascii "news") (ascii "m")).isSome)) =
      some (some (5, false, true, true), true) := by decide +kernel
  obtain ⟨server, returned, reach, seen⟩ := exists_sampleServer shown
  obtain ⟨found, taken⟩ := Prod.mk.inj seen
  obtain ⟨conn, isConn, fields⟩ := Option.map_eq_some_iff.mp found
  obtain ⟨isFive, isOpen, receiving, takes⟩ : conn.fd = 5 ∧ conn.closed = false ∧
      receives (ascii "news") conn = true ∧
      Takes conn (encode (published (ascii "news") (ascii "m"))) := by simpa using fields
  have member : conn ∈ server.conns := List.mem_of_find?_eq_some isConn
  have name : lastNames (sampleSubscription (ascii "News")) conn.fd = some (ascii "News") := by
    rw [isFive]
    decide
  have sent : IsSent server 6 (samplePublishTo (ascii "news")) (ascii "news") (ascii "m") conn :=
    (isSent_iff reach.inv (by decide) member).mpr
      ⟨Option.isSome_iff_exists.mp taken, receiving, takes⟩
  refine ⟨server, conn, reach, returned, member, isOpen, name, parsed_bulks (by decide), sent,
    fun byName => ?_⟩
  have same := (byName conn member isOpen).mp sent
  rw [name] at same
  exact absurd same (by decide)

end Publish

end Zedis.Server

/-
**Publish and subscribe, over whole runs of the system.**

`Mailroom` says what each client is sent, from the commands that were handled only: the name that each
connection last gave to `SUBSCRIBE`, how many messages were published, and the items that a connection was
sent since it was opened. It knows nothing of the list of connections, the ring or the write buffers.

`subscribers_get_messages`: at every point of every run that keeps to the own bytes of the write buffers,
what the socket of an open connection has taken, followed by what is pending, is the text of its items, and
the front of it if the connection is marked as closed. So a subscriber gets every message that is taken on its channel after it subscribed, once, in the
order of publication and before the reply to any later command, and no other message.
-/

import Zedis.EventLoop.Streams
import Zedis.Server.Channels

namespace Zedis.EventLoop

open Zedis.Lib Zedis.Reply Zedis.Resp Zedis.Connection Zedis.RingBuffer Zedis.Server

/-! ### The items of a client -/

/-- What a connection is sent. -/
inductive Item
  /-- A message on a channel. -/
  | message (channel payload : Bytes)
  /-- The reply to `PUBLISH`: the number of receivers. -/
  | counted (receivers : Nat)
  /-- The reply to a `PUBLISH` that is refused. -/
  | refused
  /-- The reply to `SUBSCRIBE`. -/
  | joined (channel : Bytes)
  /-- The reply to another command. -/
  | other (cmd : RespValue Bytes)

/-- **The text of an item.** Nothing is said of the replies to other commands. -/
inductive Item.Reads : Item → Bytes → Prop
  | message (channel payload : Bytes) :
      Reads (.message channel payload) (encode (published (cstr (channelName channel)) payload))
  | counted (receivers : Nat) : Reads (.counted receivers) (encode (.integer (wrap64 receivers)))
  | refused : Reads .refused (encode (.error (ascii "ERR ring buffer full")))
  | joined (channel : Bytes) : Reads (.joined channel) (subscribeText (channelName channel))
  | other (cmd : RespValue Bytes) (text : Bytes) : Reads (.other cmd) text

/-- A text is that of some items, one after the other. -/
def TextOf (items : List Item) (text : Bytes) : Prop :=
  ∃ texts, List.Forall₂ Item.Reads items texts ∧ texts.flatten = text

theorem textOf_nil : TextOf [] [] := ⟨[], .nil, rfl⟩

theorem Item.Reads.textOf {item : Item} {text : Bytes} (reads : item.Reads text) : TextOf [item] text :=
  ⟨[text], .cons reads .nil, List.append_nil text⟩

theorem TextOf.append {items later : List Item} {text more : Bytes} (first : TextOf items text)
    (second : TextOf later more) : TextOf (items ++ later) (text ++ more) := by
  obtain ⟨texts, reads, rfl⟩ := first
  obtain ⟨texts', reads', rfl⟩ := second
  exact ⟨texts ++ texts', List.rel_append reads reads', List.flatten_append⟩

/-! ### The mailroom -/

/-- The name that each connection last gave, the number of messages so far, and the items of each
connection. -/
structure Mailroom where
  names : Nat → Option Bytes
  count : Nat
  items : Nat → List Item

/-- Nobody has been sent anything. -/
def Mailroom.empty : Mailroom := ⟨fun _ => none, 0, fun _ => []⟩

/-- **A message is taken**: it is short enough, and fewer than `capacity` came before it. -/
def Mailroom.takes (room : Mailroom) (capacity : Nat) (payload : Bytes) : Bool :=
  decide (payload.length ≤ zedisRingMsgMax ∧ room.count < capacity)

/-- **A connection gets the messages on a channel** if it gave its name, up to what is compared. -/
def Mailroom.hears (room : Mailroom) (channel : Bytes) (fd : Nat) : Bool :=
  (room.names fd).any fun name => foldName name = foldName channel

/-- The messages that a command sends to a connection. -/
def Mailroom.due (room : Mailroom) (capacity : Nat) (cmd : RespValue Bytes) (fd : Nat) : List Item :=
  match publishArgs cmd with
  | some (channel, payload) =>
    if room.takes capacity payload && room.hears channel fd then [.message channel payload] else []
  | none => []

/-- The reply to a command, `fds` being the connections that are open. -/
def Mailroom.replyTo (room : Mailroom) (capacity : Nat) (fds : List Nat) (cmd : RespValue Bytes) : Item :=
  match publishArgs cmd with
  | some (channel, payload) =>
    if room.takes capacity payload then .counted (fds.filter (room.hears channel)).length else .refused
  | none => (subscribeArg cmd).elim (.other cmd) .joined

/-- A command is handled for a connection. -/
def Mailroom.handles (room : Mailroom) (capacity : Nat) (fds : List Nat) (fd : Nat)
    (cmd : RespValue Bytes) : Mailroom where
  names := nameStep room.names (.command fd cmd)
  count := room.count + if publishes (.command fd cmd) then 1 else 0
  items := fun other => room.items other ++
    (room.due capacity cmd other ++ if other = fd then [room.replyTo capacity fds cmd] else [])

/-- A connection is opened. -/
def Mailroom.opens (room : Mailroom) (fd : Nat) : Mailroom :=
  ⟨Function.update room.names fd none, room.count, Function.update room.items fd []⟩

/-- The mailroom after an event that has handled the commands of a record. -/
def Mailroom.after (room : Mailroom) (capacity : Nat) (s : System) (event : SystemEvent)
    (record : Record) : Mailroom :=
  match event with
  | .accept (some arrival) => room.opens arrival.fd
  | _ => record.foldl (fun room asked =>
      room.handles capacity (s.server.conns.map Conn.fd) asked.1 asked.2) room

/-- The mailroom after an input. -/
def Mailroom.afterInput (room : Mailroom) (capacity : Nat) (s : System) (input : LoopInput)
    (record : Record) : Mailroom :=
  match input with
  | .event _ event => room.after capacity s event record
  | .shared _ _ => room

/-- Without a command, only an accepted connection concerns the mailroom. -/
theorem Mailroom.after_other {room : Mailroom} {s : System} {event : SystemEvent} (capacity : Nat)
    (notAccept : ∀ arrival, event ≠ .accept (some arrival)) : room.after capacity s event [] = room := by
  unfold Mailroom.after
  split
  · exact absurd rfl (notAccept _)
  · rfl

/-- The loop with its history and the mailroom. -/
def postedLoop (capacity : Nat) (posted : (System × Sessions) × Mailroom) (input : LoopInput) :
    Option ((System × Sessions) × Mailroom) :=
  (recordedLoop posted.1.1 input).map fun (next, record) =>
    ((next, posted.1.2.afterInput posted.1.1 input next record),
      posted.2.afterInput capacity posted.1.1 input record)

/-- The input keeps to the own bytes of the write buffers. -/
def PostedOwn (posted : (System × Sessions) × Mailroom) (input : LoopInput) : Prop :=
  KeepsOwn posted.1.1 input

instance (posted : (System × Sessions) × Mailroom) (input : LoopInput) :
    Decidable (PostedOwn posted input) :=
  inferInstanceAs (Decidable (KeepsOwn posted.1.1 input))

/-! ### A command -/

/-- **Every connection has been sent its items**, `sent` being its text, and the server knows the names
and the number of messages. -/
structure Posted (capacity : UInt64) (server : ZedisServer) (room : Mailroom) (sent : Nat → Bytes) :
    Prop where
  named : ∀ conn ∈ server.conns, HasName conn (room.names conn.fd)
  ring : Unpolled capacity room.count server.ring
  items : ∀ conn ∈ server.conns, TextOf (room.items conn.fd) (sent conn.fd)

section Command

variable {capacity : UInt64} {server after : ZedisServer} {room : Mailroom} {sent : Nat → Bytes}
  {fd : Nat} {cmd : RespValue Bytes} {channel payload : Bytes}

theorem receives_eq_hears {conn : Conn} (has : HasName conn (room.names conn.fd)) (channel : Bytes) :
    receives (channelName channel) conn = room.hears channel conn.fd := by
  rw [Bool.eq_iff_iff, has.receives_iff, Mailroom.hears, Option.any_eq_true]
  simp only [decide_eq_true_eq]

/-- The ring takes the messages that the mailroom takes. -/
theorem Posted.takes_iff (posted : Posted capacity server room sent) (channel payload : Bytes) :
    (∃ ring, zedisRingPublish server.ring channel payload = some ring) ↔
      room.takes capacity.toNat payload = true := by
  rw [Mailroom.takes, decide_eq_true_eq]
  constructor
  · rintro ⟨ring, taken⟩
    have short := (zedisRingPublish_eq_some taken).1
    exact ⟨short, (posted.ring.accepts_iff short).mp ⟨ring, taken⟩⟩
  · exact fun ⟨short, left⟩ => (posted.ring.accepts_iff short).mpr left

theorem addressed_append (texts later : List (Nat × Bytes)) (fd : Nat) :
    addressed (texts ++ later) fd = addressed texts fd ++ addressed later fd := List.flatMap_append

theorem addressed_of_others {texts : List (Nat × Bytes)} (others : ∀ text ∈ texts, text.1 ≠ fd) :
    addressed texts fd = [] :=
  List.flatMap_eq_nil_iff.mpr fun text member => if_neg (others text member)

/-- One text for each of some connections. -/
theorem addressed_each (text : Bytes) {conns : List Conn} (nodup : (conns.map Conn.fd).Nodup)
    (fd : Nat) : addressed (conns.map fun conn => (conn.fd, text)) fd =
      if fd ∈ conns.map Conn.fd then text else [] := by
  induction conns with
  | nil => rfl
  | cons conn conns ih =>
    obtain ⟨fresh, nodup⟩ := List.nodup_cons.mp nodup
    rw [List.map_cons, addressed_cons, ih nodup, List.map_cons]
    by_cases isFd : conn.fd = fd
    · subst isFd
      rw [if_pos rfl, if_neg fresh, if_pos List.mem_cons_self, List.append_nil]
    · simp only [isFd, if_false, List.nil_append, List.mem_cons, Ne.symm isFd, false_or]

/-- The connections after a command were there before it. -/
theorem mem_fds_of_after {rc : Int} (inv : ServerInv server)
    (runs : serverHandleCommand server fd cmd = some (rc, after)) {conn : Conn}
    (member : conn ∈ after.conns) : ∃ old ∈ server.conns, old.fd = conn.fd := by
  rcases serverHandleCommand_conns runs with ⟨-, -, rfl⟩ | ⟨-, -, calls, sentTo, -⟩
  · exact ⟨conn, (List.mem_filter.mp member).1, rfl⟩
  · rw [sentTo.conns] at member
    obtain ⟨before, listed, rfl⟩ := List.mem_map.mp member
    have same := afterCalls_same server.stack (counted_subscribing inv listed) calls
    rw [same.fd]
    unfold subscribing at listed
    split at listed
    · obtain ⟨old, inside, ⟨-, rfl⟩ | ⟨-, rfl⟩⟩ := mem_changeConn listed
      · exact ⟨old, inside, rfl⟩
      · exact ⟨_, inside, rfl⟩
    · exact ⟨before, listed, rfl⟩

/-- A `SUBSCRIBE` that names a channel gets its reply. -/
theorem subscribe_texts (server : ZedisServer) (fd : Nat) (arg : subscribeArg cmd = some channel) :
    ∃ after, serverHandleCommand server fd cmd = some (0, after) ∧
      textsSince server after = [(fd, subscribeText (channelName channel))] := by
  unfold subscribeArg at arg
  split at arg
  · rename_i isSubscribe
    obtain ⟨positive, short⟩ := length_subscribeText (length_channelName channel)
    have runs : serverHandleCommand server fd cmd = some (sendPrinted { server with
        conns := changeConn server.conns fd (withChannel channel) } fd 512
          (subscribeText (channelName channel))) := by
      rw [serverHandleCommand_fn isSubscribe]
      simp only [CommandName.fn, subscribeCommand, arg]
      rfl
    rw [sendPrinted_fits positive short] at runs
    refine ⟨_, runs, (textsSince_queueWrite rfl _).trans ?_⟩
    exact congrArg (fun text => [(fd, text)]) (data_of_front (List.prefix_append _ _) rfl server.stack)
  · cases arg

/-- The messages of a `PUBLISH`, and its reply. -/
theorem Posted.publish_texts (posted : Posted capacity server room sent) (inv : ServerInv server)
    (args : publishArgs cmd = some (channel, payload)) {rc : Int}
    (runs : serverHandleCommand server fd cmd = some (rc, after)) {conn : Conn}
    (member : conn ∈ server.conns) :
    TextOf (room.due capacity.toNat cmd conn.fd ++
        if conn.fd = fd then [room.replyTo capacity.toNat (server.conns.map Conn.fd) cmd] else [])
      (addressed (textsSince server after) conn.fd) := by
  -- the reply goes to the connection that asked
  have own : ∀ {item : Item} {text : Bytes}, item.Reads text →
      TextOf (if conn.fd = fd then [item] else []) (addressed [(fd, text)] conn.fd) := by
    intro item text reads
    rw [addressed_cons, addressed_nil, List.append_nil]
    by_cases isFd : conn.fd = fd
    · rw [if_pos isFd, if_pos isFd.symm]
      exact reads.textOf
    · rw [if_neg isFd, if_neg (Ne.symm isFd)]
      exact textOf_nil
  have takes_iff := posted.takes_iff (channelName channel) payload
  simp only [Mailroom.due, Mailroom.replyTo, args]
  cases taken : zedisRingPublish server.ring (channelName channel) payload with
  | none =>
    have refused : room.takes capacity.toNat payload = false := by
      rw [taken] at takes_iff
      exact Bool.eq_false_iff.mpr fun takes => by obtain ⟨_, isSome⟩ := takes_iff.mpr takes; cases isSome
    obtain ⟨after', ends, calls⟩ := publish_refused fd args taken
    cases ends.symm.trans runs
    rw [textsSince, calls, List.map_singleton, encodedCall_data, refused, Bool.false_and,
      if_neg Bool.false_ne_true, if_neg Bool.false_ne_true, List.nil_append]
    exact own .refused
  | some ring =>
    have takes : room.takes capacity.toNat payload = true := takes_iff.mp ⟨ring, taken⟩
    obtain ⟨after', ends, calls⟩ := publish_taken inv fd args taken
    cases ends.symm.trans runs
    -- the receivers are the connections that hear the channel
    have hears : ∀ other ∈ server.conns,
        receives (channelName channel) other = room.hears channel other.fd := fun other inside =>
      receives_eq_hears (posted.named other inside) channel
    have number : (server.conns.filter (receives (channelName channel))).length =
        ((server.conns.map Conn.fd).filter (room.hears channel)).length := by
      rw [List.filter_map, List.length_map]
      exact congrArg List.length (List.filter_congr hears)
    have nodup : ((server.conns.filter (receives (channelName channel))).map Conn.fd).Nodup :=
      (List.filter_sublist.map Conn.fd).nodup inv.fds
    have pushed : conn.fd ∈ (server.conns.filter (receives (channelName channel))).map Conn.fd ↔
        room.hears channel conn.fd = true := by
      constructor
      · intro listed
        obtain ⟨other, inside, sameFd⟩ := List.mem_map.mp listed
        obtain ⟨inside, receiving⟩ := List.mem_filter.mp inside
        rw [← sameFd, ← hears other inside]
        exact receiving
      · intro heard
        exact List.mem_map_of_mem (List.mem_filter.mpr ⟨member, (hears conn member).trans heard⟩)
    have texts : textsSince server after = (server.conns.filter (receives (channelName channel))).map
          (fun other => (other.fd, encode (published (cstr (channelName channel)) payload))) ++
        [(fd, encode (.integer (wrap64
          ((server.conns.map Conn.fd).filter (room.hears channel)).length)))] := by
      rw [textsSince, calls, List.map_append, List.map_map, List.map_singleton, encodedCall_data, number]
      refine congrArg (· ++ _) (List.map_congr_left fun other _ => ?_)
      exact congrArg (Prod.mk other.fd) (data_of_front List.prefix_rfl rfl server.stack)
    rw [texts, addressed_append, addressed_each _ nodup, takes, Bool.true_and, if_pos rfl]
    refine TextOf.append ?_ (own (.counted _))
    by_cases heard : room.hears channel conn.fd = true
    · rw [if_pos heard, if_pos (pushed.mpr heard)]
      exact (Item.Reads.message channel payload).textOf
    · rw [if_neg heard, if_neg fun listed => heard (pushed.mp listed)]
      exact textOf_nil

/-- **What a command sends to each connection.** -/
theorem Posted.texts (posted : Posted capacity server room sent) (inv : ServerInv server) {rc : Int}
    (runs : serverHandleCommand server fd cmd = some (rc, after)) :
    ∀ conn ∈ after.conns, TextOf (room.due capacity.toNat cmd conn.fd ++
        if conn.fd = fd then [room.replyTo capacity.toNat (server.conns.map Conn.fd) cmd] else [])
      (addressed (textsSince server after) conn.fd) := by
  intro conn member
  cases args : publishArgs cmd with
  | some published =>
    obtain ⟨old, inside, sameFd⟩ := mem_fds_of_after inv runs member
    rw [← sameFd]
    exact posted.publish_texts inv args runs inside
  | none =>
    simp only [Mailroom.due, Mailroom.replyTo, args, List.nil_append]
    cases arg : subscribeArg cmd with
    | some channel =>
      obtain ⟨after', ends, texts⟩ := subscribe_texts server fd arg
      cases ends.symm.trans runs
      rw [texts, addressed_cons, addressed_nil, List.append_nil]
      by_cases isFd : conn.fd = fd
      · rw [if_pos isFd, if_pos isFd.symm]
        exact (Item.Reads.joined channel).textOf
      · rw [if_neg isFd, if_neg (Ne.symm isFd)]
        exact textOf_nil
    | none =>
      by_cases isFd : conn.fd = fd
      · rw [if_pos isFd]
        exact (Item.Reads.other cmd _).textOf
      rw [if_neg isFd]
      rcases serverHandleCommand_conns runs with ⟨-, -, rfl⟩ | ⟨-, -, calls, sentTo, own | taken⟩
      · rw [textsSince_of_calls (show (connDestroy server fd).calls = server.calls from rfl)]
        exact textOf_nil
      · rw [textsSince, callsSince, sentTo.calls, List.drop_left, addressed_of_others]
        · exact textOf_nil
        · intro text listed
          obtain ⟨call, inside, rfl⟩ := List.mem_map.mp listed
          exact fun same => isFd (same.symm.trans (own call inside))
      · obtain ⟨channel, message, ring, isPublish, -⟩ := taken
        cases args.symm.trans isPublish

/-- The ring after a command. -/
theorem Posted.ring_after (posted : Posted capacity server room sent) (inv : ServerInv server) {rc : Int}
    (runs : serverHandleCommand server fd cmd = some (rc, after)) :
    Unpolled capacity (room.count + if publishes (.command fd cmd) then 1 else 0) after.ring := by
  obtain ⟨_, _, pushes, own, ends, emits, -⟩ := serverHandleCommand_handled inv fd cmd
  cases ends.symm.trans runs
  rw [emits.ring, ringOf_eq, publishes]
  cases publishArgs cmd with
  | none => exact posted.ring
  | some args =>
    simp only [Option.any_some, decide_eq_true_eq]
    exact posted.ring.publish (channelName args.1) args.2

/-- The connections that are left, with their names, have been sent their items. -/
theorem Posted.of_conns {sent' : Nat → Bytes} (posted : Posted capacity server room sent)
    (ring : after.ring = server.ring) (conns : ∀ conn ∈ after.conns, ∃ old ∈ server.conns,
      old.fd = conn.fd ∧ (∀ name, HasName old name → HasName conn name) ∧
        sent' conn.fd = sent conn.fd) : Posted capacity after room sent' := by
  refine ⟨fun conn member => ?_, ring ▸ posted.ring, fun conn member => ?_⟩
  · obtain ⟨old, inside, sameFd, keeps, -⟩ := conns conn member
    exact keeps _ (sameFd ▸ posted.named old inside)
  · obtain ⟨old, inside, sameFd, -, sameText⟩ := conns conn member
    rw [sameText]
    exact sameFd ▸ posted.items old inside

/-- **A command that is dispatched.** -/
theorem Posted.dispatched (posted : Posted capacity server room sent) (inv : ServerInv server)
    {destroyed : Bool} (ends : dispatchCommand fd server cmd = some (after, destroyed)) :
    Posted capacity after (room.handles capacity.toNat (server.conns.map Conn.fd) fd cmd)
      fun other => sent other ++ addressed (textsSince server after) other := by
  obtain ⟨rc, handled, runs, isAfter⟩ := dispatchCommand_eq_some ends
  have here : Posted capacity handled (room.handles capacity.toNat (server.conns.map Conn.fd) fd cmd)
      fun other => sent other ++ addressed (textsSince server handled) other := by
    refine ⟨hasName_after inv posted.named runs, posted.ring_after inv runs, fun conn member => ?_⟩
    obtain ⟨old, inside, sameFd⟩ := mem_fds_of_after inv runs member
    exact (sameFd ▸ posted.items old inside).append (posted.texts inv runs conn member)
  rcases isAfter with rfl | rfl
  · exact here
  · exact here.of_conns rfl fun conn member =>
      ⟨conn, (List.mem_filter.mp member).1, rfl, fun _ has => has, rfl⟩

end Command

/-! ### Steps -/

section Steps

variable {capacity : UInt64} {s next : System} {log : Sessions} {room : Mailroom} {record : Record}
  {fd : Nat} {conn : Conn}

/-- The parser of a connection does not matter. -/
theorem Posted.parsed {sent : Nat → Bytes} (posted : Posted capacity s.server room sent)
    (last : RespParser) (nodes : NodePool) :
    Posted capacity (s.parsed fd last nodes).server room sent := by
  refine posted.of_conns rfl fun conn member => ?_
  obtain ⟨old, inside, ⟨-, rfl⟩ | ⟨-, rfl⟩⟩ := mem_changeConn member
  · exact ⟨old, inside, rfl, fun _ has => ⟨has.subscribed, has.copied⟩, rfl⟩
  · exact ⟨_, inside, rfl, fun _ has => has, rfl⟩

/-- **A round of `server_dispatch_commands`.** -/
theorem Round.posted {malloc : Nat → Bool} (round : Round s fd conn malloc next) (inv : SystemInv s)
    (phase : s.phase = .dispatching fd) (found : connOf s.server fd = some conn)
    (posted : Posted capacity s.server room log.sent) :
    Posted capacity next.server (room.after capacity.toNat s (.parse malloc) (commandAt s (.parse malloc)).toList)
      (log.after s (.parse malloc) next record).sent := by
  -- a command that is parsed is dispatched
  have dispatched : ∀ {last : RespParser} {nodes : NodePool} {out : RespValueT} {cmd : RespValue Bytes}
      {rest : Bytes} {server : ZedisServer} {destroyed : Bool},
      nextNodes (grants s.slab (s.memory fd).nodes.asked malloc) conn.parser (s.memory fd).nodes =
        some (.ok out, last, nodes) → decode (unread conn.parser) = some (.ok (cmd, rest)) →
      dispatchCommand fd (s.parsed fd last nodes).server cmd = some (server, destroyed) →
      next.server = server → Posted capacity next.server (room.after capacity.toNat s (.parse malloc) (commandAt s (.parse malloc)).toList)
        (log.after s (.parse malloc) next record).sent := by
    intro last nodes out cmd rest server destroyed runs decoded ends isServer
    have handled := (posted.parsed last nodes).dispatched (inv.parsed_server fd last nodes) ends
    rw [fds_parsed] at handled
    have isRoom : room.after capacity.toNat s (.parse malloc) (commandAt s (.parse malloc)).toList =
        room.handles capacity.toNat (s.server.conns.map Conn.fd) fd cmd := by
      rw [commandAt_of_ok phase found inv runs decoded]
      rfl
    subst isServer
    rw [isRoom]
    exact handled
  -- otherwise the mailroom is as it was
  have silent : ∀ {said : Verdict RespValueT} {last : RespParser} {nodes : NodePool},
      nextNodes (grants s.slab (s.memory fd).nodes.asked malloc) conn.parser (s.memory fd).nodes =
        some (said, last, nodes) → (∀ out, said ≠ .ok out) →
      room.after capacity.toNat s (.parse malloc) (commandAt s (.parse malloc)).toList = room := by
    intro said last nodes runs notOk
    rw [commandAt_of_other phase found runs notOk]
    rfl
  cases round with
  | waits last nodes runs =>
    rw [silent runs nofun]
    have quiet : textsSince s.server (s.parsed fd last nodes).server = [] := textsSince_of_calls rfl
    refine (posted.parsed last nodes).of_conns rfl fun other member =>
      ⟨other, member, rfl, fun _ has => has, ?_⟩
    change log.sent other.fd ++
      addressed (textsSince s.server (s.parsed fd last nodes).server) other.fd = log.sent other.fd
    rw [quiet, addressed_nil, List.append_nil]
  | protests last nodes runs =>
    rw [silent runs nofun]
    refine (posted.parsed last nodes).of_conns rfl fun other member =>
      ⟨other, mem_protocolError (inv.parsed_server fd last nodes) member, rfl, fun _ has => has, ?_⟩
    have differs : other.fd ≠ fd := of_decide_eq_true (List.mem_filter.mp member).2
    change log.sent other.fd ++ addressed
      (textsSince s.server (protocolError fd (s.parsed fd last nodes).server)) other.fd = log.sent other.fd
    rw [addressed_protocolError differs, List.append_nil]
  | destroys last nodes out cmd rest server runs decoded ends => exact dispatched runs decoded ends rfl
  | handles last nodes released out cmd rest server runs decoded ends =>
    exact dispatched runs decoded ends rfl

/-- A new connection has been sent nothing. -/
theorem acceptStep_posted {arrival : Arrival} (posted : Posted capacity s.server room log.sent)
    (taken : acceptStep s (some arrival) = some next) :
    Posted capacity next.server (room.opens arrival.fd)
      (log.after s (.accept (some arrival)) next record).sent := by
  obtain ⟨fresh, outcome⟩ := acceptStep_cases taken
  have differs : ∀ conn ∈ s.server.conns, conn.fd ≠ arrival.fd := fun conn member =>
    ne_of_mem_of_not_mem (List.mem_map_of_mem member) fresh
  have others : Posted capacity s.server (room.opens arrival.fd)
      (log.after s (.accept (some arrival)) next record).sent := by
    refine ⟨fun conn member => ?_, posted.ring, fun conn member => ?_⟩
    · change HasName conn (Function.update room.names arrival.fd none conn.fd)
      rw [Function.update_of_ne (differs conn member)]
      exact posted.named conn member
    · change TextOf (Function.update room.items arrival.fd [] conn.fd)
        (Function.update log.sent arrival.fd [] conn.fd)
      rw [Function.update_of_ne (differs conn member), Function.update_of_ne (differs conn member)]
      exact posted.items conn member
  rcases outcome with ⟨-, rfl⟩ | ⟨buf, conn, writeBuf, -, -, -, -, rfl⟩
  · exact others
  · refine ⟨fun conn member => ?_, posted.ring, fun conn member => ?_⟩
    · rcases List.mem_cons.mp member with rfl | old
      · change HasName _ (Function.update room.names arrival.fd none arrival.fd)
        rw [Function.update_self]
        exact ⟨rfl, nofun⟩
      · exact others.named conn old
    · rcases List.mem_cons.mp member with rfl | old
      · change TextOf (Function.update room.items arrival.fd [] arrival.fd)
          (Function.update log.sent arrival.fd [] arrival.fd)
        rw [Function.update_self, Function.update_self]
        exact textOf_nil
      · exact others.items conn old

/-- **Every step keeps the connections sent their items.** -/
theorem Posted.step {event : SystemEvent} (posted : Posted capacity s.server room log.sent)
    (inv : SystemInv s) (taken : systemStep s event = some next) :
    Posted capacity next.server (room.after capacity.toNat s event (commandAt s event).toList)
      (log.after s event next record).sent := by
  by_cases isParse : ∃ malloc, event = .parse malloc
  · obtain ⟨malloc, rfl⟩ := isParse
    cases systemStep_stepped inv taken with
    | turns _ _ notParse => exact absurd rfl (notParse malloc)
    | round fd conn _ _ phase found round => exact round.posted inv phase found posted
  by_cases isAccept : ∃ arrival, event = .accept (some arrival)
  · obtain ⟨arrival, rfl⟩ := isAccept
    rw [systemStep] at taken
    split at taken
    · exact acceptStep_posted posted taken
    · cases taken
  -- no command is handled, and no connection gets another name
  have notParse : ∀ malloc, event ≠ .parse malloc := fun malloc same => isParse ⟨malloc, same⟩
  have notAccept : ∀ arrival, event ≠ .accept (some arrival) := fun arrival same =>
    isAccept ⟨arrival, same⟩
  rw [commandAt_of_no_parse notParse, Option.toList_none, Mailroom.after_other capacity.toNat notAccept,
    Sessions.sent_other notParse notAccept]
  have flushed : ∀ {fd : Nat} {conn : Conn}, connOf s.server fd = some conn →
      Posted capacity (s.setConn fd fun _ => (connOnWritable conn).2).server room log.sent := by
    intro fd conn found
    obtain ⟨inside, isFd⟩ := connOf_spec found
    have same := (connFlush_flushed (inv.server.counted conn inside)).same
    refine posted.of_conns rfl fun other member => ?_
    obtain ⟨old, listed, ⟨-, rfl⟩ | ⟨-, rfl⟩⟩ := mem_changeConn member
    · exact ⟨conn, inside, same.fd.symm, fun _ has => has.same same, rfl⟩
    · exact ⟨_, listed, rfl, fun _ has => has, rfl⟩
  have left : ∀ {server : ZedisServer}, Posted capacity server room log.sent → ∀ fd,
      Posted capacity (connDestroy server fd) room log.sent := fun here fd =>
    here.of_conns rfl fun other member =>
      ⟨other, (List.mem_filter.mp member).1, rfl, fun _ has => has, rfl⟩
  cases systemStep_stepped inv taken with
  | turns => exact posted
  | drops arrival => exact absurd rfl (notAccept arrival)
  | opens arrival => exact absurd rfl (notAccept arrival)
  | adds => exact ⟨posted.named, posted.ring, posted.items⟩
  | gives fd => exact left posted fd
  | flushes fd conn _ found => exact flushed found
  | breaks fd conn _ found => exact left (flushed found) fd
  | ends fd => exact left posted fd
  | reads fd bytes =>
    refine posted.of_conns rfl fun other member => ?_
    obtain ⟨old, inside, ⟨-, rfl⟩ | ⟨-, rfl⟩⟩ := mem_changeConn member
    · exact ⟨old, inside, rfl, fun _ has => ⟨has.subscribed, has.copied⟩, rfl⟩
    · exact ⟨_, inside, rfl, fun _ has => has, rfl⟩
  | round _ _ malloc => exact absurd rfl (notParse malloc)

/-- **Every input that keeps to the own bytes keeps the connections sent their items.** -/
theorem Posted.loop {input : LoopInput} (posted : Posted capacity s.server room log.sent) (inv : LoopInv s)
    (own : KeepsOwn s input) (taken : recordedLoop s input = some (next, record)) :
    Posted capacity next.server (room.afterInput capacity.toNat s input record)
      (log.afterInput s input next record).sent := by
  rcases recordedLoop_cases inv own taken with
    ⟨last, event, rfl, stepped, rfl⟩ | ⟨fd, bytes, rfl, rfl, -⟩
  · exact posted.step inv.system stepped
  · refine posted.of_conns rfl fun conn member => ?_
    obtain ⟨old, listed, ⟨-, rfl⟩ | ⟨-, rfl⟩⟩ := mem_changeConn member
    · exact ⟨old, listed, rfl, fun _ has => ⟨has.subscribed, has.copied⟩, rfl⟩
    · exact ⟨_, listed, rfl, fun _ has => has, rfl⟩

end Steps

/-- Client 5 subscribes to `News`, client 6 publishes on `news`, and the link word after the buffer of
client 6 is written. -/
def sampleNews : List LoopInput :=
  (sampleOpens 5 [] ++ sampleOpens 6 [] ++ sampleSends 5 (ascii "SUBSCRIBE News\r\n") 2 ++
    sampleSends 6 (ascii "PUBLISH news m\r\n") 2).map (.event (some 5)) ++
      [.shared 6 (List.replicate 8 255)]

end Zedis.EventLoop

/-
**The receiver count of `PUBLISH`.**

`publish_command` counts the subscribers of the channel and then broadcasts: the reply says how many
connections the message was meant for. `conn_queue_write` may refuse it to some of them, and the broadcast
does not look at what it returns. So the reply is the number of deliveries exactly if every receiver
accepts the message (`publish_count_iff`); a subscriber whose socket fails is counted all the same
(`failed_delivery_counted`).
-/

import Zedis.Server.Channels

namespace Zedis.Server

open Zedis.Lib Zedis.Resp Zedis.Connection Zedis.RingBuffer

/-- The `conn_queue_write` of a call returns `0`. -/
def isAccepted (server : ZedisServer) (call : QueueCall) : Bool :=
  (connOf server call.fd).any fun conn => (connQueueWrite conn (call.data server.stack)).1 == 0

/-- How many of some calls, made one after the other, are accepted. -/
def acceptedCount : ZedisServer → List QueueCall → Nat
  | _, [] => 0
  | server, call :: calls =>
    (if isAccepted server call then 1 else 0) + acceptedCount (queueWrite server call) calls

section Deliveries

variable {server : ZedisServer} {channel payload : Bytes}

theorem isAccepted_push (inv : ServerInv server) {conn : Conn} (member : conn ∈ server.conns)
    (channel payload : Bytes) : isAccepted server (pushCall channel payload conn) =
      decide (Takes conn (encode (published channel payload))) := by
  rw [isAccepted, show (pushCall channel payload conn).fd = conn.fd from rfl, connOf_of_mem inv member,
    Option.any_some, Bool.eq_iff_iff, beq_iff_eq, push_accepted_iff, decide_eq_true_eq]

theorem mem_queueWrite_of_ne {call : QueueCall} {conn : Conn} (member : conn ∈ server.conns)
    (differ : conn.fd ≠ call.fd) : conn ∈ (queueWrite server call).conns :=
  List.mem_map.mpr ⟨conn, member, if_neg differ⟩

/-- **Each receiver accepts its push or not, whatever the others do.** -/
theorem acceptedCount_pushes {receivers : List Conn} : ∀ {server : ZedisServer}, ServerInv server →
    (receivers.map Conn.fd).Nodup → (∀ conn ∈ receivers, conn ∈ server.conns) →
    acceptedCount server (receivers.map (pushCall channel payload)) =
      receivers.countP fun conn => Takes conn (encode (published channel payload)) := by
  induction receivers with
  | nil => exact fun _ _ _ => rfl
  | cons receiver receivers ih =>
    intro server inv nodup members
    rw [List.map_cons, List.nodup_cons] at nodup
    have rest : ∀ conn ∈ receivers,
        conn ∈ (queueWrite server (pushCall channel payload receiver)).conns := by
      intro conn later
      refine mem_queueWrite_of_ne (members conn (List.mem_cons_of_mem _ later)) fun same => ?_
      change conn.fd = receiver.fd at same
      exact nodup.1 (same ▸ List.mem_map_of_mem later)
    rw [List.map_cons, acceptedCount, isAccepted_push inv (members receiver List.mem_cons_self),
      ih (inv.queueWrite _) nodup.2 rest, List.countP_cons, Nat.add_comm]

/-- Connections with different `int` descriptors are few. -/
theorem length_conns_le (inv : ServerInv server) (ints : ∀ conn ∈ server.conns, conn.fd < 2 ^ 31) :
    server.conns.length ≤ 2 ^ 31 := by
  have inside : (server.conns.map Conn.fd).toFinset ⊆ Finset.range (2 ^ 31) := by
    intro fd member
    obtain ⟨conn, old, rfl⟩ := List.mem_map.mp (List.mem_toFinset.mp member)
    exact Finset.mem_range.mpr (ints conn old)
  have card := Finset.card_le_card inside
  rwa [List.toFinset_card_of_nodup inv.fds, List.length_map, Finset.card_range] at card

/-- What an accepted `PUBLISH` does. -/
theorem publish_runs (server : ZedisServer) (fd : Nat) {cmd : RespValue Bytes} {channel message : Bytes}
    (args : publishArgs cmd = some (channel, message)) {ring : ZedisRingBuffer}
    (taken : zedisRingPublish server.ring (channelName channel) message = some ring) :
    serverHandleCommand server fd cmd = some (0,
      ((server.conns.filter (receives (channelName channel))).map
          (pushCall (cstr (channelName channel)) message) ++
        [encodedCall fd 64 (.integer (wrap64
          (server.conns.filter (receives (channelName channel))).length))]).foldl queueWrite
            { server with ring := ring }) := by
  obtain ⟨isPublish, first, second⟩ := publishArgs_eq_some args
  cases cmd with
  | array elements =>
    exact (serverHandleCommand_known fd isPublish).trans (publishCommand_runs server fd first second taken)
  | _ => cases isPublish

/-- The pushes are accepted by the receivers that take the message. -/
theorem acceptedCount_broadcast (inv : ServerInv server) (ring : ZedisRingBuffer)
    (channel message : Bytes) :
    acceptedCount { server with ring := ring }
        ((server.conns.filter (receives channel)).map (pushCall (cstr channel) message)) =
      (server.conns.filter (receives channel)).countP fun conn =>
        Takes conn (encode (published (cstr channel) message)) := by
  refine acceptedCount_pushes ⟨inv.kv, inv.registries, inv.fds, inv.counted⟩ ?_ ?_
  · exact inv.fds.sublist (List.filter_sublist.map _)
  · exact fun conn member => List.mem_of_mem_filter member

end Deliveries

/-- **The replied integer is the number of connections that have accepted the message** exactly if every
receiver accepts it. -/
theorem publish_count_iff {server : ZedisServer} (inv : ServerInv server)
    (ints : ∀ conn ∈ server.conns, conn.fd < 2 ^ 31) (fd : Nat) {cmd : RespValue Bytes}
    {channel message : Bytes} (args : publishArgs cmd = some (channel, message)) {ring : ZedisRingBuffer}
    (taken : zedisRingPublish server.ring (channelName channel) message = some ring) :
    ∃ pushes replied, serverHandleCommand server fd cmd = some (0,
        (pushes ++ [encodedCall fd 64 (.integer replied)]).foldl queueWrite { server with ring := ring }) ∧
      (∀ call ∈ pushes, call.push = true) ∧ (pushes.map QueueCall.fd).Nodup ∧
      (replied = acceptedCount { server with ring := ring } pushes ↔
        ∀ conn ∈ server.conns, receives (channelName channel) conn = true →
          Takes conn (encode (published (cstr (channelName channel)) message))) := by
  refine ⟨_, _, publish_runs server fd args taken, ?_, ?_, ?_⟩
  · intro call member
    obtain ⟨conn, -, rfl⟩ := List.mem_map.mp member
    rfl
  · rw [List.map_map]
    exact inv.fds.sublist (List.filter_sublist.map _)
  · have few := (List.length_filter_le (receives (channelName channel)) _).trans (length_conns_le inv ints)
    rw [acceptedCount_broadcast inv, wrap64_of_range (by omega) (by omega), Int.natCast_inj, eq_comm,
      List.countP_eq_length]
    simp only [List.mem_filter, decide_eq_true_eq, and_imp]

/-- Client 5 subscribes to `c`, and then its socket fails; client 6 is there to publish. -/
def failingSubscriber : List ServerEvent :=
  [sampleClient [.takes 99, .fails], sampleOther, .command 5 (bulks [ascii "SUBSCRIBE", ascii "c"])]

/-- **A subscriber that has not got the message is counted**: `PUBLISH` answers `1`, and no
`conn_queue_write` of the message has returned `0`. -/
theorem failed_delivery_counted : ∃ server ring pushes, Reachable server ∧
    Parsed (samplePublishTo (ascii "c")) ∧
    zedisRingPublish server.ring (channelName (ascii "c")) (ascii "m") = some ring ∧
    serverHandleCommand server 6 (samplePublishTo (ascii "c")) = some (0,
      (pushes ++ [encodedCall 6 64 (.integer 1)]).foldl queueWrite { server with ring := ring }) ∧
    (∀ call ∈ pushes, call.push = true) ∧ acceptedCount { server with ring := ring } pushes = 0 := by
  have shown : (sampleServer failingSubscriber).map (fun server =>
      ((server.conns.filter (receives (channelName (ascii "c")))).length,
        (server.conns.filter (receives (channelName (ascii "c")))).countP fun conn =>
          Takes conn (encode (published (cstr (channelName (ascii "c"))) (ascii "m"))),
        (zedisRingPublish server.ring (channelName (ascii "c")) (ascii "m")).isSome)) =
      some (1, 0, true) := by decide +kernel
  obtain ⟨server, -, reach, seen⟩ := exists_sampleServer shown
  obtain ⟨one, rest⟩ := Prod.mk.inj seen
  obtain ⟨refused, isTaken⟩ := Prod.mk.inj rest
  obtain ⟨ring, taken⟩ := Option.isSome_iff_exists.mp isTaken
  have runs := publish_runs server 6 (show publishArgs (samplePublishTo (ascii "c")) = _ by decide) taken
  rw [one] at runs
  refine ⟨server, ring, _, reach, parsed_bulks (by decide), taken, runs, fun call member => ?_, ?_⟩
  · obtain ⟨conn, -, rfl⟩ := List.mem_map.mp member
    rfl
  · rw [acceptedCount_broadcast reach.inv, refused]

/-- A message to one subscriber with an empty buffer. -/
theorem publish_count_iff_news : ∃ server ring pushes replied, ServerInv server ∧
    zedisRingPublish server.ring (channelName (ascii "news")) (ascii "m") = some ring ∧
    serverHandleCommand server 6 (samplePublishTo (ascii "news")) = some (0,
      (pushes ++ [encodedCall 6 64 (.integer replied)]).foldl queueWrite { server with ring := ring }) ∧
    replied = acceptedCount { server with ring := ring } pushes := by
  have shown : (sampleServer (sampleSubscription (ascii "news"))).map (fun server =>
      (server.conns.map Conn.fd, server.conns.all fun conn =>
        Takes conn (encode (published (cstr (channelName (ascii "news"))) (ascii "m"))),
        (zedisRingPublish server.ring (channelName (ascii "news")) (ascii "m")).isSome)) =
      some ([6, 5], true, true) := by decide +kernel
  obtain ⟨server, -, reach, seen⟩ := exists_sampleServer shown
  obtain ⟨fds, rest⟩ := Prod.mk.inj seen
  obtain ⟨allTake, isTaken⟩ := Prod.mk.inj rest
  obtain ⟨ring, taken⟩ := Option.isSome_iff_exists.mp isTaken
  have ints : ∀ conn ∈ server.conns, conn.fd < 2 ^ 31 := by
    intro conn member
    have listed : conn.fd ∈ [6, 5] := fds ▸ List.mem_map_of_mem member
    have small : ∀ fd ∈ [6, 5], fd < 2 ^ 31 := by decide
    exact small conn.fd listed
  obtain ⟨pushes, replied, runs, -, -, truthful⟩ := publish_count_iff reach.inv ints 6
    (show publishArgs (samplePublishTo (ascii "news")) = _ by decide) taken
  refine ⟨server, ring, pushes, replied, reach.inv, taken, runs, truthful.mpr fun conn member _ => ?_⟩
  exact of_decide_eq_true (List.all_eq_true.mp allTake conn member)

end Zedis.Server

/-
**The list of connections (`server_link_conn`, `server_unlink_conn`).**

The connections of a server are a doubly linked list through their fields `next` and `prev`, with its
head and its length in the server. Linking and unlinking keep it in order, whatever the order of the
calls is and whatever the fields of connections that are not linked hold (`conn_list_exact`): following
`next` from `conns_head` visits each linked connection once. The loop of `server_broadcast_channel` walks
this list (`broadcastLoop_eq`), and does to the connections what `serverBroadcastChannel` does to the list
of them (`broadcastLoop_refines`).
-/

import Zedis.Lib.DoublyLinked
import Zedis.Lib.Run
import Zedis.Server.Conns
import Mathlib.Data.Fintype.Card

namespace Zedis.Server

open Zedis.Lib Zedis.Arena Zedis.Resp Zedis.Connection Zedis.RingBuffer

/-- A `conn_t *` that is not `NULL`. -/
abbrev ConnPtr : Type := Fin (sizeMod - 1)

/-- The fields `conns_head` and `conn_count` of the server, and `next` and `prev` of all connections. -/
structure ConnLinks where
  connsHead : Option ConnPtr
  next : ConnPtr → Option ConnPtr
  prev : ConnPtr → Option ConnPtr
  connCount : Nat

/-- `server_link_conn`. -/
def serverLinkConn (s : ConnLinks) (conn : ConnPtr) : ConnLinks :=
  let s := { s with next := Function.update s.next conn s.connsHead }
  let s := { s with prev := Function.update s.prev conn none }
  let s := match s.connsHead with
    | some head => { s with prev := Function.update s.prev head (some conn) }
    | none => s
  { s with connsHead := some conn, connCount := (s.connCount + 1) % sizeMod }

/-- `server_unlink_conn`. -/
def serverUnlinkConn (s : ConnLinks) (conn : ConnPtr) : ConnLinks :=
  let s := match s.prev conn with
    | some before => { s with next := Function.update s.next before (s.next conn) }
    | none => { s with connsHead := s.next conn }
  let s := match s.next conn with
    | some after => { s with prev := Function.update s.prev after (s.prev conn) }
    | none => s
  if s.connCount > 0 then { s with connCount := s.connCount - 1 } else s

/-- A call. -/
inductive LinkOp
  | link (conn : ConnPtr)
  | unlink (conn : ConnPtr)
deriving DecidableEq, Repr

/-- The links, and the connections that are linked, newest first, after a call. -/
def linkStep (state : ConnLinks × List ConnPtr) : LinkOp → Option (ConnLinks × List ConnPtr)
  | .link conn => some (serverLinkConn state.1 conn, conn :: state.2)
  | .unlink conn => some (serverUnlinkConn state.1 conn, state.2.erase conn)

/-- A connection is linked if it is not, and unlinked if it is. -/
def LinkAllowed (state : ConnLinks × List ConnPtr) : LinkOp → Prop
  | .link conn => conn ∉ state.2
  | .unlink conn => conn ∈ state.2

instance (state : ConnLinks × List ConnPtr) (op : LinkOp) : Decidable (LinkAllowed state op) :=
  match op with
  | .link conn => inferInstanceAs (Decidable (conn ∉ state.2))
  | .unlink conn => inferInstanceAs (Decidable (conn ∈ state.2))

/-- The loop of `server_broadcast_channel` from a connection on: the connections, and those for which
`conn_queue_write` was called; `none` where the loop has not ended. -/
def broadcastLoop (next : ConnPtr → Option ConnPtr) (channel msg : Bytes) :
    Nat → Option ConnPtr → (ConnPtr → Conn) → Option ((ConnPtr → Conn) × List ConnPtr)
  | 0, _, _ => none
  | _ + 1, none, heap => some (heap, [])
  | fuel + 1, some c, heap =>
    if receives channel (heap c) then
      (broadcastLoop next channel msg fuel (next c)
        (Function.update heap c (connQueueWrite (heap c) msg).2)).map fun result =>
          (result.1, c :: result.2)
    else broadcastLoop next channel msg fuel (next c) heap

/-! ### One call -/

/-- **The links visit the linked connections**, and their number is counted. -/
structure ConnsLinked (s : ConnLinks) (linked : List ConnPtr) : Prop where
  list : DoublyListed s.next s.prev none s.connsHead linked
  nodup : linked.Nodup
  count : s.connCount = linked.length

section Calls

variable {s : ConnLinks} {linked : List ConnPtr} {conn : ConnPtr}

/-- There are fewer than `2 ^ 64` connections. -/
theorem length_lt_of_nodup (nodup : linked.Nodup) : linked.length < sizeMod := by
  have bound := nodup.length_le_card
  rw [Fintype.card_fin] at bound
  exact bound.trans_lt (by decide)

theorem ConnsLinked.link (inv : ConnsLinked s linked) (fresh : conn ∉ linked) :
    ConnsLinked (serverLinkConn s conn) (conn :: linked) := by
  have nodup := List.nodup_cons.mpr ⟨fresh, inv.nodup⟩
  have counted : (s.connCount + 1) % sizeMod = (conn :: linked).length := by
    rw [inv.count]
    exact Nat.mod_eq_of_lt (length_lt_of_nodup nodup)
  have sameNext : ∀ c ∈ linked, Function.update s.next conn s.connsHead c = s.next c :=
    fun c member => Function.update_of_ne (ne_of_mem_of_not_mem member fresh) _ _
  unfold serverLinkConn
  cases isHead : s.connsHead with
  | none =>
    have list := inv.list
    rw [isHead] at list sameNext
    refine ⟨list.push fresh (Function.update_self ..) sameNext (Function.update_self ..)
      (fun _ absent => by cases absent) (fun c differs _ => Function.update_of_ne differs _ _)
      inv.nodup, nodup, counted⟩
  | some head =>
    have list := inv.list
    rw [isHead] at list sameNext
    have linkedHead : head ∈ linked := by
      obtain ⟨rest, rfl, -⟩ := list.head_mem
      exact List.mem_cons_self
    have differs : conn ≠ head := fun same => fresh (same ▸ linkedHead)
    refine ⟨list.push fresh (Function.update_self ..) sameNext ?_ ?_ ?_ inv.nodup, nodup, counted⟩
    · exact (Function.update_of_ne differs _ _).trans (Function.update_self ..)
    · intro h isFirst
      cases isFirst
      exact Function.update_self ..
    · intro c notNew notHead
      have other : c ≠ head := fun same => notHead (congrArg some same.symm)
      exact (Function.update_of_ne other _ _).trans (Function.update_of_ne notNew _ _)

/-- The links with another one for the cell at a pointer, unless it is `NULL`. -/
def relinked (links : ConnPtr → Option ConnPtr) (at' : Option ConnPtr) (link : Option ConnPtr) :
    ConnPtr → Option ConnPtr :=
  at'.elim links fun c => Function.update links c link

theorem relinked_of_mem {links : ConnPtr → Option ConnPtr} {at' link : Option ConnPtr} {c : ConnPtr}
    (member : c ∈ at') : relinked links at' link c = link := by
  cases member
  exact Function.update_self ..

theorem relinked_of_not_mem {links : ConnPtr → Option ConnPtr} {at' link : Option ConnPtr} {c : ConnPtr}
    (outside : c ∉ at') : relinked links at' link c = links c := by
  cases at' with
  | none => rfl
  | some other => exact Function.update_of_ne (fun same => outside (congrArg some same.symm)) _ _

theorem countDown_eq (s : ConnLinks) :
    (if s.connCount > 0 then { s with connCount := s.connCount - 1 } else s) =
      { s with connCount := s.connCount - 1 } := by
  split
  · rfl
  · have zero : s.connCount - 1 = s.connCount := by omega
    rw [zero]

/-- **What `server_unlink_conn` does** to a connection that is not its own neighbour. -/
theorem serverUnlinkConn_eq (notSelf : conn ∉ s.prev conn) : serverUnlinkConn s conn =
    { connsHead := if s.prev conn = none then s.next conn else s.connsHead
      next := relinked s.next (s.prev conn) (s.next conn)
      prev := relinked s.prev (s.next conn) (s.prev conn)
      connCount := s.connCount - 1 } := by
  unfold serverUnlinkConn
  simp only [countDown_eq]
  cases isPrev : s.prev conn with
  | none =>
    cases isNext : s.next conn with
    | none => simp only [if_true, relinked, Option.elim]
    | some after => simp only [isPrev, if_true, relinked, Option.elim]
  | some before =>
    have differs : conn ≠ before := fun same => notSelf (isPrev.trans (congrArg some same.symm))
    have kept : Function.update s.next before (s.next conn) conn = s.next conn :=
      Function.update_of_ne differs _ _
    cases isNext : s.next conn with
    | none =>
      rw [isNext] at kept
      simp only [kept, reduceCtorEq, if_false, relinked, Option.elim]
    | some after =>
      rw [isNext] at kept
      simp only [kept, isPrev, reduceCtorEq, if_false, relinked, Option.elim]

theorem ConnsLinked.unlink (inv : ConnsLinked s linked) (member : conn ∈ linked) :
    ConnsLinked (serverUnlinkConn s conn) (linked.erase conn) := by
  have list := inv.list
  have nodup := inv.nodup
  have notSelf : conn ∉ s.prev conn := by
    intro isPrev
    rcases list.mem_of_prev member isPrev with ⟨-, isNext⟩ | ⟨outside, -⟩
    · exact list.listed.next_ne nodup member isNext
    · cases outside
  obtain ⟨head, without, first, later⟩ := list.erase
    (fun c => @relinked_of_mem s.next (s.prev conn) (s.next conn) c)
    (fun c => relinked_of_not_mem) (fun c => relinked_of_mem) (fun c => relinked_of_not_mem)
    nodup member
  have isHead : (if s.prev conn = none then s.next conn else s.connsHead) = head := by
    split
    · rename_i none
      exact (first none).symm
    · rename_i some
      exact (later some).symm
  rw [serverUnlinkConn_eq notSelf, isHead]
  refine ⟨without, nodup.erase conn, ?_⟩
  rw [inv.count, List.length_erase_of_mem member]

theorem ConnsLinked.step {state after : ConnLinks × List ConnPtr} {op : LinkOp}
    (inv : ConnsLinked state.1 state.2) (allowed : LinkAllowed state op)
    (taken : linkStep state op = some after) : ConnsLinked after.1 after.2 := by
  cases op with
  | link conn =>
    cases taken
    exact inv.link allowed
  | unlink conn =>
    cases taken
    exact inv.unlink allowed

end Calls

/-! ### The loop of a broadcast -/

section Broadcast

variable {next : ConnPtr → Option ConnPtr} {linked : List ConnPtr}

/-- The connections after `conn_queue_write` for those that receive the channel. -/
def broadcastTo (channel msg : Bytes) (linked : List ConnPtr) (heap : ConnPtr → Conn) (c : ConnPtr) :
    Conn :=
  if c ∈ linked ∧ receives channel (heap c) then (connQueueWrite (heap c) msg).2 else heap c

theorem broadcastTo_update {channel msg : Bytes} {first : ConnPtr} {heap : ConnPtr → Conn}
    (notLater : first ∉ linked) (isReceiver : receives channel (heap first)) :
    broadcastTo channel msg linked (Function.update heap first (connQueueWrite (heap first) msg).2) =
      broadcastTo channel msg (first :: linked) heap := by
  funext c
  unfold broadcastTo
  by_cases isFirst : c = first
  · subst isFirst
    rw [Function.update_self, if_neg fun held => notLater held.1,
      if_pos ⟨List.mem_cons_self, isReceiver⟩]
  · simp only [Function.update_of_ne isFirst, List.mem_cons, isFirst, false_or]

theorem broadcastTo_cons {channel msg : Bytes} {first : ConnPtr} {heap : ConnPtr → Conn}
    (notReceiver : ¬ receives channel (heap first)) :
    broadcastTo channel msg linked heap = broadcastTo channel msg (first :: linked) heap := by
  funext c
  unfold broadcastTo
  by_cases isFirst : c = first
  · subst isFirst
    rw [if_neg fun held => notReceiver held.2, if_neg fun held => notReceiver held.2]
  · simp only [List.mem_cons, isFirst, false_or]

/-- **The loop calls `conn_queue_write` once for each linked connection that receives the channel**, in
the order of the list. -/
theorem broadcastLoop_eq (channel msg : Bytes) :
    ∀ {linked : List ConnPtr} {head : Option ConnPtr} {fuel : Nat} (heap : ConnPtr → Conn),
      Listed next head linked → linked.Nodup → linked.length < fuel →
        broadcastLoop next channel msg fuel head heap =
          some (broadcastTo channel msg linked heap, linked.filter fun c => receives channel (heap c))
  | [], _, fuel + 1, heap, listed, _, _ => by
    have ended : _ = none := listed
    have same : broadcastTo channel msg [] heap = heap := by
      funext c
      exact if_neg fun held => absurd held.1 List.not_mem_nil
    rw [ended, broadcastLoop, same, List.filter_nil]
  | first :: linked, _, fuel + 1, heap, listed, nodup, enough => by
    obtain ⟨isHead, rest⟩ := listed
    obtain ⟨notLater, nodup⟩ := List.nodup_cons.mp nodup
    have ih := fun heap => broadcastLoop_eq channel msg heap rest nodup (Nat.lt_of_succ_lt_succ enough)
    rw [isHead, broadcastLoop]
    split
    · rename_i isReceiver
      -- the connections after the first one are as they were
      have others : linked.filter (fun c => receives channel
            (Function.update heap first (connQueueWrite (heap first) msg).2 c)) =
          linked.filter fun c => receives channel (heap c) :=
        List.filter_congr fun c member => by
          rw [Function.update_of_ne (ne_of_mem_of_not_mem member notLater)]
      have sent : (first :: linked).filter (fun c => receives channel (heap c)) =
          first :: linked.filter fun c => receives channel (heap c) := List.filter_cons_of_pos isReceiver
      rw [ih, Option.map_some, others, sent, broadcastTo_update notLater isReceiver]
    · rename_i notReceiver
      have sent : (first :: linked).filter (fun c => receives channel (heap c)) =
          linked.filter fun c => receives channel (heap c) := List.filter_cons_of_neg notReceiver
      rw [ih, sent, broadcastTo_cons notReceiver]

end Broadcast

/-! ### Whole runs -/

/-- **The list of connections is exact**: in every run of calls on fresh and on linked connections,
following `next` from `conns_head` visits the linked connections once each, `prev` is the inverse of
`next`, and `conn_count` is their number; and a broadcast leaves of each of them that receives the
channel what one `conn_queue_write` of the message does, and changes no other. -/
theorem conn_list_exact {next prev : ConnPtr → Option ConnPtr} {ops : List LinkOp} {s : ConnLinks}
    {linked : List ConnPtr}
    (run : Run linkStep LinkAllowed (⟨none, next, prev, 0⟩, []) ops (s, linked)) :
    Listed s.next s.connsHead linked ∧ linked.Nodup ∧
      (∀ c ∈ linked, ∀ d ∈ linked, s.next c = some d ↔ s.prev d = some c) ∧
      (∀ c ∈ linked, s.prev c = none ↔ s.connsHead = some c) ∧
      (∀ c ∈ linked, ∀ d, s.prev c = some d → d ∈ linked) ∧
      s.connCount = linked.length ∧
      ∀ channel msg heap fuel, linked.length < fuel → ∃ after sent,
        broadcastLoop s.next channel msg fuel s.connsHead heap = some (after, sent) ∧
          sent.Nodup ∧ sent = (linked.filter fun c => receives channel (heap c)) ∧
          (∀ c ∈ sent, after c = (connQueueWrite (heap c) msg).2) ∧ ∀ c, c ∉ sent → after c = heap c := by
  have inv := run.invariant (fun state => ConnsLinked state.1 state.2)
    (fun state op next inv allowed taken => inv.step allowed taken) ⟨rfl, List.nodup_nil, rfl⟩
  have list := inv.list
  refine ⟨list.listed, inv.nodup, fun c member d member' => list.next_iff_prev member member',
    fun c member => list.prev_none_iff member, fun c member d link => ?_, inv.count,
    fun channel msg heap fuel enough => ?_⟩
  · rcases list.mem_of_prev member link with ⟨inside, -⟩ | ⟨outside, -⟩
    · exact inside
    · cases outside
  · refine ⟨_, _, broadcastLoop_eq channel msg heap list.listed inv.nodup enough,
      inv.nodup.filter _, rfl, fun c member => if_pos (List.mem_filter.mp member),
      fun c outside => if_neg fun held => outside ?_⟩
    exact List.mem_filter.mpr held

/-- Two connections are linked and the older one, the tail of the list, is unlinked. -/
theorem conn_list_exact_tail : ∃ s,
    Run linkStep LinkAllowed (⟨none, fun _ => none, fun _ => none, 0⟩, [])
        [.link ⟨7, by decide⟩, .link ⟨8, by decide⟩, .unlink ⟨7, by decide⟩]
        (s, [⟨8, by decide⟩]) ∧
      Listed s.next s.connsHead [⟨8, by decide⟩] ∧ s.connCount = 1 := by
  have run : Run linkStep LinkAllowed (⟨none, fun _ => none, fun _ => none, 0⟩, [])
      [.link ⟨7, by decide⟩, .link ⟨8, by decide⟩, .unlink ⟨7, by decide⟩] (_, [⟨8, by decide⟩]) :=
    .cons (by decide) rfl (.cons (by decide) rfl (.cons (by decide) rfl (.nil _)))
  obtain ⟨listed, -, -, -, -, count, -⟩ := conn_list_exact run
  exact ⟨_, run, listed, count⟩

/-! ### The list of connections of the server model -/

/-- **The loop does to the connections what the broadcast does to the list of them.** -/
theorem broadcastLoop_refines {s : ConnLinks} {linked : List ConnPtr} (inv : ConnsLinked s linked)
    {server : ZedisServer} {heap : ConnPtr → Conn} (isList : server.conns = linked.map heap)
    (distinct : (server.conns.map Conn.fd).Nodup) (counted : ∀ conn ∈ server.conns, Counted conn)
    {channel payload : Bytes} (named : channel.length ≤ 63) (short : payload.length ≤ zedisRingMsgMax)
    {fuel : Nat} (enough : linked.length < fuel) :
    ∃ after sent, broadcastLoop s.next channel (encode (published (cstr channel) payload)) fuel
        s.connsHead heap = some (after, sent) ∧
      (serverBroadcastChannel server channel payload).conns = linked.map after := by
  refine ⟨_, _, broadcastLoop_eq channel _ heap inv.list.listed inv.nodup enough, ?_⟩
  rw [serverBroadcastChannel_eq server channel named short, ((Sent.refl server).foldl _ _).conns,
    List.nil_append]
  have receivers : ((server.conns.filter (receives channel)).map Conn.fd).Nodup :=
    distinct.sublist (List.filter_sublist.map Conn.fd)
  have same : ∀ c ∈ linked, (heap c).fd ∈ (server.conns.filter (receives channel)).map Conn.fd ↔
      c ∈ linked ∧ receives channel (heap c) := by
    intro c member
    have inConns : heap c ∈ server.conns := isList ▸ List.mem_map_of_mem member
    constructor
    · intro named
      obtain ⟨conn, inside, sameFd⟩ := List.mem_map.mp named
      obtain ⟨inConns', isReceiver⟩ := List.mem_filter.mp inside
      rw [List.inj_on_of_nodup_map distinct inConns' inConns sameFd] at isReceiver
      exact ⟨member, isReceiver⟩
    · rintro ⟨-, isReceiver⟩
      exact List.mem_map_of_mem (List.mem_filter.mpr ⟨inConns, isReceiver⟩)
  have each : ∀ c ∈ linked, afterCalls server.stack
      ((server.conns.filter (receives channel)).map (pushCall (cstr channel) payload)) (heap c) =
        broadcastTo channel (encode (published (cstr channel) payload)) linked heap c := by
    intro c member
    rw [afterCalls_pushes server.stack (counted _ (isList ▸ List.mem_map_of_mem member)) _ _ receivers]
    exact if_congr (same c member) rfl rfl
  generalize afterCalls server.stack
    ((server.conns.filter (receives channel)).map (pushCall (cstr channel) payload)) = calls at each ⊢
  rw [isList, List.map_map]
  exact List.map_congr_left each

end Zedis.Server

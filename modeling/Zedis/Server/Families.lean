/-
**The stores do not interfere.**

A request is about one of four stores (`Request.family`). `families_do_not_interfere`: what clients are
told by the commands of one family depends on the commands of this family alone. Whatever the others
store, push, order, publish or subscribe to in between, and whoever connects, disconnects or is dropped,
two runs with the same requests of the family hand the same replies to `conn_queue_write`. The runs are
those of the server with the shared bytes, and no append of theirs ends beyond the own bytes of a write
buffer (`Owned`): one that does may change the first entry of the key-value table, whatever the command.

The proof compares two runs (`Run.unwinds`): a request of the family gets the same reply from servers
that agree on its store (`answer_agrees`), and no other event changes that store (`answer_aside`,
`serverStep_keeps`).
-/

import Zedis.Lib.Simulation
import Zedis.Server.Refinement

namespace Zedis.Server

open Zedis.Lib Zedis.Reply Zedis.HashTable Zedis.BTree Zedis.AppendLog Zedis.Registry Zedis.Resp
open Zedis.Connection Zedis.OrderBook

/-- The stores that requests are about. -/
inductive Family
  | strings | sets | lists | book
deriving DecidableEq, Repr

/-- The store that a request is about. -/
def Request.family : Request → Family
  | .set _ _ | .get _ | .del _ => .strings
  | .zadd _ _ _ | .zscore _ _ | .zrange _ _ _ => .sets
  | .lpush _ _ | .llen _ | .lrange _ _ _ => .lists
  | .order _ _ _ | .level _ => .book

/-- Two servers have the same store of the family. -/
def SameStore (server other : ZedisServer) : Family → Prop
  | .strings => server.kv = other.kv
  | .sets => server.zsets = other.zsets
  | .lists => server.lists = other.lists ∧ server.log = other.log
  | .book => server.book = other.book

/-- **Two servers are alike for the requests of a family**: they have its store and the memory below
the handlers in common. -/
structure Alike (family : Family) (server other : ZedisServer) : Prop where
  store : SameStore server other family
  stack : server.stack = other.stack

/-- The request of an event, if it is one of the family, and the connection that makes it. -/
def familyRequest (family : Family) : ServerEvent → Option (Nat × Request)
  | .command fd cmd =>
    ((requestOf cmd).filter fun request => request.family = family).map fun request => (fd, request)
  | _ => none

/-- What a step shows of the family: its request, and the texts that are sent. -/
def familyExchange (family : Family) (server : ZedisServer) (event : ServerEvent) (next : ZedisServer) :
    List ((Nat × Request) × List (Nat × Bytes)) :=
  (familyRequest family event).toList.map fun asked => (asked, textsSince server next)

/-- An event, and the connection whose write buffer is the last block when it happens. -/
structure SharedInput where
  last : Option Nat
  event : ServerEvent

/-- The state an input leaves, with the shared bytes. -/
def inputStep (server : ZedisServer) (input : SharedInput) : Option ZedisServer :=
  sharedStep input.last server input.event

/-- The input keeps to the own bytes of the write buffers. -/
def OwnedInput (server : ZedisServer) (input : SharedInput) : Prop := Owned server input.event

instance (server : ZedisServer) (input : SharedInput) : Decidable (OwnedInput server input) :=
  inferInstanceAs (Decidable (Owned server input.event))

/-- The request of an input. -/
def inputRequest (family : Family) (input : SharedInput) : Option (Nat × Request) :=
  familyRequest family input.event

/-- What the step of an input shows of the family. -/
def inputExchange (family : Family) (server : ZedisServer) (input : SharedInput) (next : ZedisServer) :
    List ((Nat × Request) × List (Nat × Bytes)) :=
  familyExchange family server input.event next

/-! ### Servers that are alike -/

section Alike

variable {family : Family} {server other third : ZedisServer}

theorem SameStore.symm (same : SameStore server other family) : SameStore other server family := by
  cases family with
  | strings => exact Eq.symm same
  | sets => exact Eq.symm same
  | lists => exact ⟨same.1.symm, same.2.symm⟩
  | book => exact Eq.symm same

theorem SameStore.trans (same : SameStore server other family) (same' : SameStore other third family) :
    SameStore server third family := by
  cases family with
  | strings => exact Eq.trans same same'
  | sets => exact Eq.trans same same'
  | lists => exact ⟨same.1.trans same'.1, same.2.trans same'.2⟩
  | book => exact Eq.trans same same'

theorem Alike.of_same (same : StoresStay server other) : Alike family server other := by
  have zsets : other.zsets = server.zsets := congrArg Registries.zsets same.registries
  have lists : other.lists = server.lists := congrArg Registries.lists same.registries
  have log : other.log = server.log := congrArg Registries.log same.registries
  refine ⟨?_, same.stack.symm⟩
  cases family with
  | strings => exact same.kv.symm
  | sets => exact zsets.symm
  | lists => exact ⟨lists.symm, log.symm⟩
  | book => exact same.book.symm

theorem Alike.symm (alike : Alike family server other) : Alike family other server :=
  ⟨alike.store.symm, alike.stack.symm⟩

theorem Alike.trans (alike : Alike family server other) (alike' : Alike family other third) :
    Alike family server third :=
  ⟨alike.store.trans alike'.store, alike.stack.trans alike'.stack⟩

/-- A call of `conn_queue_write` is not seen in the stores. -/
theorem alike_queueWrite (family : Family) (server : ZedisServer) (call : QueueCall) :
    Alike family server (queueWrite server call) :=
  .of_same ⟨rfl, rfl, rfl, rfl⟩

theorem alike_kv (others : family ≠ .strings) (server : ZedisServer) (kv : ZedisHashTable) :
    Alike family server { server with kv := kv } := by
  refine ⟨?_, rfl⟩
  cases family with
  | strings => exact absurd rfl others
  | sets => exact rfl
  | lists => exact ⟨rfl, rfl⟩
  | book => exact rfl

theorem alike_zsets (others : family ≠ .sets) (server : ZedisServer) (zsets : ZedisZsetRegistry) :
    Alike family server { server with zsets := zsets } := by
  refine ⟨?_, rfl⟩
  cases family with
  | strings => exact rfl
  | sets => exact absurd rfl others
  | lists => exact ⟨rfl, rfl⟩
  | book => exact rfl

theorem alike_lists (others : family ≠ .lists) (server : ZedisServer) (lists : ZedisListRegistry)
    (log : ZedisAppendLog) : Alike family server { server with lists := lists, log := log } := by
  refine ⟨?_, rfl⟩
  cases family with
  | strings => exact rfl
  | sets => exact rfl
  | lists => exact absurd rfl others
  | book => exact rfl

theorem alike_book (others : family ≠ .book) (server : ZedisServer) (book : ZedisOrderBook) :
    Alike family server { server with book := book } := by
  refine ⟨?_, rfl⟩
  cases family with
  | strings => exact rfl
  | sets => exact rfl
  | lists => exact ⟨rfl, rfl⟩
  | book => exact absurd rfl others

end Alike

/-! ### Requests of other families -/

/-- A result leaves a server that is alike. -/
def Aside (family : Family) (server : ZedisServer) (result : Option (Int × ZedisServer)) : Prop :=
  ∀ rc after, result = some (rc, after) → Alike family server after

section Aside

variable {family : Family} {server base : ZedisServer}

theorem Aside.of_some {rc : Int} {after : ZedisServer} (alike : Alike family server after) :
    Aside family server (some (rc, after)) := by
  intro rc' after' returned
  cases returned
  exact alike

theorem Aside.of_map {α : Type} {found : Option α} {reply : α → Int × ZedisServer}
    (each : ∀ value, Aside family server (some (reply value))) : Aside family server (found.map reply) := by
  intro rc after returned
  obtain ⟨value, -, isReply⟩ := Option.map_eq_some_iff.mp returned
  exact each value rc after (congrArg some isReply)

theorem Aside.of_bind {α : Type} {found : Option α} {reply : α → Option (Int × ZedisServer)}
    (each : ∀ value, Aside family server (reply value)) : Aside family server (found.bind reply) := by
  intro rc after returned
  obtain ⟨value, -, isReply⟩ := Option.bind_eq_some_iff.mp returned
  exact each value rc after isReply

theorem Aside.of_elim {α : Type} {found : Option α} {missing : Int × ZedisServer}
    {reply : α → Int × ZedisServer} (absent : Aside family server (some missing))
    (each : ∀ value, Aside family server (some (reply value))) :
    Aside family server (some (found.elim missing reply)) := by
  cases found with
  | none => exact absent
  | some value => exact each value

theorem Aside.formatted (alike : Alike family server base) (fd size : Nat) (reply : Formatted) :
    Aside family server (some (sendFormatted base fd size reply)) := by
  unfold sendFormatted
  split
  · split
    · exact .of_some (alike.trans (alike_queueWrite family base _))
    · exact .of_some alike
  · exact .of_some alike

theorem Aside.printed (alike : Alike family server base) (fd size : Nat) (text : Bytes) :
    Aside family server (some (sendPrinted base fd size text)) := by
  unfold sendPrinted
  split
  · exact .of_some (alike.trans (alike_queueWrite family base _))
  · exact .of_some alike

theorem Aside.range (alike : Alike family server base) (fd : Nat) (failed : Bytes)
    (text : Option Bytes) : Aside family server (some (sendRange base fd failed text)) := by
  cases text with
  | none => exact .formatted alike fd 512 _
  | some text => exact .of_some (alike.trans (alike_queueWrite family base _))

theorem alike_self (family : Family) (server : ZedisServer) : Alike family server server :=
  .of_same ⟨rfl, rfl, rfl, rfl⟩

/-- **A request of another family is not seen in the store.** -/
theorem answer_aside {request : Request} (others : family ≠ request.family) (server : ZedisServer)
    (fd : Nat) : Aside family server (answer server fd request) := by
  have self := alike_self family server
  cases request with
  | set key value =>
    refine .of_map fun done => ?_
    obtain ⟨rc, kv⟩ := done
    have alike := alike_kv others server kv
    dsimp only
    split
    · exact .formatted alike fd 512 _
    · exact .formatted alike fd 512 _
  | get key =>
    exact .of_map fun found => .of_elim (.formatted self fd 64 _) fun hit => .formatted self fd 4096 _
  | del key => exact .of_map fun done => .formatted (alike_kv others server done.2) fd 64 _
  | zadd key score member =>
    refine .of_bind fun prev => .of_map fun done => ?_
    obtain ⟨rc, zsets⟩ := done
    have alike := alike_zsets others server zsets
    dsimp only
    split
    · exact .formatted alike fd 512 _
    · exact .formatted alike fd 64 _
  | zscore key member =>
    refine .of_map fun found => .of_elim (.formatted self fd 64 _) fun score => ?_
    split
    · exact .formatted self fd 4096 _
    · exact .of_some self
  | zrange key start stop => exact .of_map fun text => .range self fd _ text
  | lpush key value =>
    refine .of_bind fun done => ?_
    obtain ⟨rc, lists, log⟩ := done
    have alike := alike_lists others server lists log
    dsimp only
    split
    · exact .formatted alike fd 512 _
    · exact .of_map fun len => .formatted alike fd 64 _
  | llen key => exact .of_map fun len => .formatted self fd 64 _
  | lrange key start stop => exact .of_map fun text => .range self fd _ text
  | order side price qty =>
    exact .of_elim (.formatted self fd 512 _) fun book =>
      .formatted (alike_book others server book) fd 64 _
  | level price => exact .of_elim (.formatted self fd 512 _) fun level => .printed self fd 128 _

end Aside

/-! ### Requests of the family -/

/-- Two results leave servers that are alike, and the same texts are sent. -/
def Agrees (family : Family) (server other : ZedisServer) (one two : Option (Int × ZedisServer)) : Prop :=
  ∀ rc after rc' after', one = some (rc, after) → two = some (rc', after') →
    Alike family after after' ∧ textsSince server after = textsSince other after'

section Agrees

variable {family : Family} {server other base base' : ZedisServer}

theorem Agrees.of_some {rc rc' : Int} {after after' : ZedisServer} (alike : Alike family after after')
    (texts : textsSince server after = textsSince other after') :
    Agrees family server other (some (rc, after)) (some (rc', after')) := by
  intro _ _ _ _ returned returned'
  cases returned
  cases returned'
  exact ⟨alike, texts⟩

theorem Agrees.of_map {α : Type} {found : Option α} {reply reply' : α → Int × ZedisServer}
    (each : ∀ value, Agrees family server other (some (reply value)) (some (reply' value))) :
    Agrees family server other (found.map reply) (found.map reply') := by
  intro rc after rc' after' returned returned'
  obtain ⟨value, isFound, isReply⟩ := Option.map_eq_some_iff.mp returned
  rw [isFound, Option.map_some] at returned'
  exact each value rc after rc' after' (congrArg some isReply) returned'

theorem Agrees.of_bind {α : Type} {found : Option α} {reply reply' : α → Option (Int × ZedisServer)}
    (each : ∀ value, Agrees family server other (reply value) (reply' value)) :
    Agrees family server other (found.bind reply) (found.bind reply') := by
  intro rc after rc' after' returned returned'
  obtain ⟨value, isFound, isReply⟩ := Option.bind_eq_some_iff.mp returned
  rw [isFound, Option.bind_some] at returned'
  exact each value rc after rc' after' isReply returned'

theorem Agrees.of_elim {α : Type} {found : Option α} {missing missing' : Int × ZedisServer}
    {reply reply' : α → Int × ZedisServer}
    (absent : Agrees family server other (some missing) (some missing'))
    (each : ∀ value, Agrees family server other (some (reply value)) (some (reply' value))) :
    Agrees family server other (some (found.elim missing reply)) (some (found.elim missing' reply')) := by
  cases found with
  | none => exact absent
  | some value => exact each value

/-- The two servers are ready for the same reply: nothing has been sent yet. -/
structure Ready (family : Family) (server other base base' : ZedisServer) : Prop where
  alike : Alike family base base'
  calls : base.calls = server.calls
  calls' : base'.calls = other.calls
  stack : server.stack = other.stack

variable (ready : Ready family server other base base')

include ready

theorem Ready.silent {rc rc' : Int} :
    Agrees family server other (some (rc, base)) (some (rc', base')) := by
  refine .of_some ready.alike ?_
  rw [textsSince, textsSince, callsSince, callsSince, ready.calls, ready.calls', List.drop_length,
    List.drop_length]
  rfl

theorem Ready.call {rc rc' : Int} (call : QueueCall) :
    Agrees family server other (some (rc, queueWrite base call)) (some (rc', queueWrite base' call)) := by
  refine .of_some (((alike_queueWrite family base call).symm.trans ready.alike).trans
    (alike_queueWrite family base' call)) ?_
  have one : callsSince server (queueWrite base call) = [call] := by
    rw [callsSince, ← ready.calls]
    exact callsSince_queueWrite base call
  have two : callsSince other (queueWrite base' call) = [call] := by
    rw [callsSince, ← ready.calls']
    exact callsSince_queueWrite base' call
  rw [textsSince, textsSince, one, two, ready.stack]

theorem Ready.formatted (fd size : Nat) (reply : Formatted) :
    Agrees family server other (some (sendFormatted base fd size reply))
      (some (sendFormatted base' fd size reply)) := by
  unfold sendFormatted
  cases reply.ret with
  | none => exact ready.silent
  | some n =>
    by_cases sent : n > 0
    · simp only [if_pos sent]
      exact ready.call _
    · simp only [if_neg sent]
      exact ready.silent

theorem Ready.printed (fd size : Nat) (text : Bytes) :
    Agrees family server other (some (sendPrinted base fd size text))
      (some (sendPrinted base' fd size text)) := by
  unfold sendPrinted
  by_cases sent : text.length > 0
  · simp only [if_pos sent]
    exact ready.call _
  · simp only [if_neg sent]
    exact ready.silent

theorem Ready.range (fd : Nat) (failed : Bytes) (text : Option Bytes) :
    Agrees family server other (some (sendRange base fd failed text))
      (some (sendRange base' fd failed text)) := by
  cases text with
  | none => exact ready.formatted fd 512 _
  | some text => exact ready.call _

omit ready in
theorem Ready.of_alike (alike : Alike family server other) : Ready family server other server other :=
  ⟨alike, rfl, rfl, alike.stack⟩

end Agrees

/-- **A request gets the same reply from two servers that are alike for its family.** -/
theorem answer_agrees {server other : ZedisServer} (request : Request) (fd : Nat)
    (alike : Alike request.family server other) :
    Agrees request.family server other (answer server fd request) (answer other fd request) := by
  have self := Ready.of_alike alike
  have stack := alike.stack
  cases request with
  | set key value =>
    have same : server.kv = other.kv := alike.store
    rw [answer, answer, same]
    refine .of_map fun done => ?_
    obtain ⟨rc, kv⟩ := done
    have ready : Ready .strings server other { server with kv := kv } { other with kv := kv } :=
      ⟨⟨rfl, stack⟩, rfl, rfl, stack⟩
    dsimp only
    split
    · exact ready.formatted fd 512 _
    · exact ready.formatted fd 512 _
  | get key =>
    have same : server.kv = other.kv := alike.store
    rw [answer, answer, same, stack]
    exact .of_map fun found => .of_elim (self.formatted fd 64 _) fun hit => self.formatted fd 4096 _
  | del key =>
    have same : server.kv = other.kv := alike.store
    rw [answer, answer, same]
    refine .of_map fun done => ?_
    have ready : Ready .strings server other { server with kv := done.2 } { other with kv := done.2 } :=
      ⟨⟨rfl, stack⟩, rfl, rfl, stack⟩
    exact ready.formatted fd 64 _
  | zadd key score member =>
    have same : server.zsets = other.zsets := alike.store
    rw [answer, answer, same]
    refine .of_bind fun prev => .of_map fun done => ?_
    obtain ⟨rc, zsets⟩ := done
    have ready : Ready .sets server other { server with zsets := zsets } { other with zsets := zsets } :=
      ⟨⟨rfl, stack⟩, rfl, rfl, stack⟩
    dsimp only
    split
    · exact ready.formatted fd 512 _
    · exact ready.formatted fd 64 _
  | zscore key member =>
    have same : server.zsets = other.zsets := alike.store
    rw [answer, answer, same, stack]
    refine .of_map fun found => .of_elim (self.formatted fd 64 _) fun score => ?_
    split
    · exact self.formatted fd 4096 _
    · exact self.silent
  | zrange key start stop =>
    have same : server.zsets = other.zsets := alike.store
    rw [answer, answer, same]
    exact .of_map fun text => self.range fd _ text
  | lpush key value =>
    obtain ⟨sameLists, sameLog⟩ := alike.store
    rw [answer, answer, sameLists, sameLog]
    refine .of_bind fun done => ?_
    obtain ⟨rc, lists, log⟩ := done
    have ready : Ready .lists server other { server with lists := lists, log := log }
        { other with lists := lists, log := log } := ⟨⟨⟨rfl, rfl⟩, stack⟩, rfl, rfl, stack⟩
    dsimp only
    split
    · exact ready.formatted fd 512 _
    · exact .of_map fun len => ready.formatted fd 64 _
  | llen key =>
    rw [answer, answer, alike.store.1]
    exact .of_map fun len => self.formatted fd 64 _
  | lrange key start stop =>
    obtain ⟨sameLists, sameLog⟩ := alike.store
    rw [answer, answer, sameLists, sameLog]
    exact .of_map fun text => self.range fd _ text
  | order side price qty =>
    have same : server.book = other.book := alike.store
    rw [answer, answer, same]
    refine .of_elim (self.formatted fd 512 _) fun book => ?_
    have ready : Ready .book server other { server with book := book } { other with book := book } :=
      ⟨⟨rfl, stack⟩, rfl, rfl, stack⟩
    exact ready.formatted fd 64 _
  | level price =>
    have same : server.book = other.book := alike.store
    rw [answer, answer, same]
    exact .of_elim (self.formatted fd 512 _) fun level => self.printed fd 128 _

/-! ### Runs -/

section Runs

variable {family : Family} {server other next next' : ZedisServer} {event event' : ServerEvent}

/-- An event that is a request of the family. -/
theorem familyRequest_eq_some {asked : Nat × Request} (isAsked : familyRequest family event = some asked) :
    ∃ cmd, event = .command asked.1 cmd ∧ requestOf cmd = some asked.2 ∧ asked.2.family = family := by
  cases event with
  | command fd cmd =>
    obtain ⟨request, kept, rfl⟩ := Option.map_eq_some_iff.mp isAsked
    obtain ⟨made, isFamily⟩ := Option.filter_eq_some_iff.mp kept
    exact ⟨cmd, rfl, made, of_decide_eq_true isFamily⟩
  | _ => cases isAsked

/-- A step of a command that makes a request. -/
theorem serverStep_answer {fd : Nat} {cmd : RespValue Bytes} {request : Request}
    (made : requestOf cmd = some request) (taken : serverStep server (.command fd cmd) = some next) :
    ∃ rc, answer server fd request = some (rc, next) := by
  rw [serverStep] at taken
  split at taken
  · obtain ⟨⟨rc, after⟩, ends, rfl⟩ := Option.map_eq_some_iff.mp taken
    exact ⟨rc, (serverHandleCommand_eq_answer made).symm.trans ends⟩
  · cases taken

/-- **What is no request of the family leaves no trace in it.** -/
theorem serverStep_aside (unasked : familyRequest family event = none)
    (taken : serverStep server event = some next) : Alike family server next := by
  by_cases asked : ∃ fd cmd request, event = .command fd cmd ∧ requestOf cmd = some request
  · obtain ⟨fd, cmd, request, rfl, made⟩ := asked
    obtain ⟨rc, ends⟩ := serverStep_answer made taken
    refine answer_aside (fun same => ?_) server fd rc next ends
    rw [familyRequest, made, Option.filter_some, if_pos (decide_eq_true same.symm)] at unasked
    cases unasked
  · exact .of_same (serverStep_keeps (fun fd cmd isCommand => Option.eq_none_iff_forall_ne_some.mpr
      fun request made => asked ⟨fd, cmd, request, isCommand, made⟩) taken)

/-- The rules of the comparison. -/
theorem family_unwinding (family : Family) :
    Unwinding inputStep OwnedInput (inputExchange family) (inputRequest family) (Alike family) where
  symm := fun _ _ alike => alike.symm
  trans := fun _ _ _ alike alike' => alike.trans alike'
  aside := by
    rintro server ⟨last, event⟩ next unasked owned taken
    change familyRequest family event = none at unasked
    rw [inputStep, sharedStep_eq owned last] at taken
    refine ⟨serverStep_aside unasked taken, ?_⟩
    rw [inputExchange, familyExchange, unasked]
    rfl
  together := by
    rintro server other ⟨last, event⟩ ⟨last', event'⟩ next next' alike same counted owned owned' taken taken'
    change familyRequest family event = familyRequest family event' at same
    rw [inputStep, sharedStep_eq owned last] at taken
    rw [inputStep, sharedStep_eq owned' last'] at taken'
    obtain ⟨asked, isAsked⟩ := Option.ne_none_iff_exists'.mp counted
    change familyRequest family event = some asked at isAsked
    obtain ⟨cmd, rfl, made, rfl⟩ := familyRequest_eq_some isAsked
    obtain ⟨cmd', rfl, made', -⟩ := familyRequest_eq_some (same.symm.trans isAsked)
    obtain ⟨rc, ends⟩ := serverStep_answer made taken
    obtain ⟨rc', ends'⟩ := serverStep_answer made' taken'
    obtain ⟨alike', texts⟩ := answer_agrees asked.2 asked.1 alike rc next rc' next' ends ends'
    refine ⟨alike', ?_⟩
    rw [inputExchange, inputExchange, familyExchange, familyExchange, ← same, isAsked, texts]

end Runs

/-- **The stores do not interfere.** Take two runs that keep to the own bytes of the write buffers, from
servers that have the store of a family in common, in which the same connections make the same requests of
the family in the same order. The replies to these requests are the same, whatever else happens in either
run. -/
theorem families_do_not_interfere (family : Family) (server other final final' : ZedisServer)
    (inputs inputs' : List SharedInput) (alike : Alike family server other)
    (run : Run inputStep OwnedInput server inputs final)
    (run' : Run inputStep OwnedInput other inputs' final')
    (same : inputs.filterMap (inputRequest family) = inputs'.filterMap (inputRequest family)) :
    observed inputStep (inputExchange family) server inputs =
        observed inputStep (inputExchange family) other inputs' ∧
      Alike family final final' := by
  obtain ⟨later, shows⟩ := run.unwinds (family_unwinding family) run' alike same
  exact ⟨shows, later⟩

/-- An event, while client 5 has the last write buffer. -/
def lastFive (event : ServerEvent) : SharedInput := ⟨some 5, event⟩

/-- A client stores a string and reads it, and pushes a value. -/
def sampleRequests : List SharedInput :=
  [sampleClient [], .command 5 (bulks [ascii "SET", ascii "a", ascii "1"]),
    .command 5 (bulks [ascii "GET", ascii "a"]),
    .command 5 (bulks [ascii "LPUSH", ascii "l", ascii "v"])].map lastFive

/-- The client without its push, and with a message in its place. -/
def quietRequests : List SharedInput :=
  [sampleClient [], .command 5 (bulks [ascii "SET", ascii "a", ascii "1"]),
    .command 5 (bulks [ascii "PUBLISH", ascii "c", ascii "m"]),
    .command 5 (bulks [ascii "GET", ascii "a"])].map lastFive

/-- A run of a new small server that checks the condition. -/
def ownedRun (inputs : List SharedInput) : Option ZedisServer :=
  (sampleServer []).bind fun server =>
    replay (fun server input => if OwnedInput server input then inputStep server input else none) server
      inputs

theorem families_do_not_interfere_sample : ∃ server final final',
    Run inputStep OwnedInput server sampleRequests final ∧
      Run inputStep OwnedInput server quietRequests final' ∧
      observed inputStep (inputExchange .strings) server sampleRequests =
        observed inputStep (inputExchange .strings) server quietRequests := by
  have returns : ((ownedRun sampleRequests).isSome && (ownedRun quietRequests).isSome) = true := by
    decide +kernel
  obtain ⟨one, two⟩ := Bool.and_eq_true_iff.mp returns
  obtain ⟨final, returned⟩ := Option.isSome_iff_exists.mp one
  obtain ⟨final', returned'⟩ := Option.isSome_iff_exists.mp two
  obtain ⟨start, made, replayed⟩ := Option.bind_eq_some_iff.mp returned
  obtain ⟨start', made', replayed'⟩ := Option.bind_eq_some_iff.mp returned'
  cases made.symm.trans made'
  have run := Run.of_guarded replayed
  have run' := Run.of_guarded replayed'
  have same : sampleRequests.filterMap (inputRequest .strings) =
      quietRequests.filterMap (inputRequest .strings) := by decide +kernel
  exact ⟨start, final, final', run, run', (families_do_not_interfere .strings start start final final'
    sampleRequests quietRequests (alike_self .strings start) run run' same).1⟩

end Zedis.Server

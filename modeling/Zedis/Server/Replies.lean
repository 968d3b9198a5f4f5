/-
**One reply for each command, and what a reply reads.**

* `one_reply_iff`: a command other than `QUIT` is answered with one call exactly if it is not
  `Unanswered`: a `PING` with an argument that is no bulk string, and a `PING`, `ECHO` or `GET` whose
  bulk string does not fit in the 4096 bytes of `reply_bulk`, get no reply;
* `within_iff`: all calls stay inside what was formatted, except that for an unknown command whose name
  has more than 487 bytes, where `snprintf` returns more than the size of the buffer;
* `outputOf_queueWrite`: a call on a connection that is open and has an empty write buffer appends its
  bytes to what the connection has sent or will send (`outputOf`), if they fit in the write buffer.
-/

import Zedis.Server.Reach

namespace Zedis.Server

open Zedis.Lib Zedis.HashTable Zedis.Reply Zedis.Resp Zedis.Connection

/-- The calls made since `before`. -/
def callsSince (before after : ZedisServer) : List QueueCall := after.calls.drop before.calls.length

/-- The calls since `before` that reply to a connection, pushes apart. -/
def repliesTo (fd : Nat) (before after : ZedisServer) : List QueueCall :=
  (callsSince before after).filter fun call => call.fd == fd && !call.push

/-- **The command is answered**, with one call of a reply that is not empty. -/
def OneReply (server : ZedisServer) (fd : Nat) (cmd : RespValue Bytes) : Prop :=
  ∃ rc after call, serverHandleCommand server fd cmd = some (rc, after) ∧
    repliesTo fd server after = [call] ∧ 0 < call.n

/-- The command gets no reply. -/
def Silent (server : ZedisServer) (elements : List (RespValue Bytes)) : Prop :=
  ∃ command, commandOf (.array elements) = some command ∧ Unanswered server elements command

/-- The call reads only bytes of its buffer that were written. -/
def Within (call : QueueCall) : Prop := call.n ≤ call.size ∧ call.n ≤ call.written.length

section Calls

variable {server after : ZedisServer} {fd : Nat} {pushes own : List QueueCall}

theorem Emits.callsSince {ring : RingBuffer.ZedisRingBuffer} {calls : List QueueCall}
    (emits : Emits server ring after calls) : callsSince server after = calls := by
  rw [Server.callsSince, emits.calls, List.drop_left]

theorem callsSince_queueWrite (server : ZedisServer) (call : QueueCall) :
    callsSince server (queueWrite server call) = [call] :=
  List.drop_left

theorem repliesTo_eq {ring : RingBuffer.ZedisRingBuffer}
    (emits : Emits server ring after (pushes ++ own)) (pushed : ∀ call ∈ pushes, call.push = true)
    (replied : ∀ call ∈ own, call.fd = fd ∧ call.push = false) : repliesTo fd server after = own := by
  rw [repliesTo, emits.callsSince, List.filter_append]
  have noPush : pushes.filter (fun call => call.fd == fd && !call.push) = [] := by
    refine List.filter_eq_nil_iff.mpr fun call member => ?_
    rw [pushed call member, Bool.not_true, Bool.and_false]
    exact Bool.false_ne_true
  have all : own.filter (fun call => call.fd == fd && !call.push) = own := by
    refine List.filter_eq_self.mpr fun call member => ?_
    obtain ⟨isFd, isReply⟩ := replied call member
    rw [isFd, isReply, beq_self_eq_true]
    rfl
  rw [noPush, all, List.nil_append]

theorem Handled.pushed {cmd : RespValue Bytes} (handled : Handled server fd cmd pushes own) :
    ∀ call ∈ pushes, Pushed call := by
  cases handled with
  | empty => exact nofun
  | format _ _ _ _ => exact nofun
  | unknown _ _ _ _ => exact nofun
  | known _ _ _ _ _ pushed _ => exact pushed

/-- Pushes and replies are what they say. -/
theorem Handled.marked {cmd : RespValue Bytes} (handled : Handled server fd cmd pushes own) :
    (∀ call ∈ pushes, call.push = true) ∧ ∀ call ∈ own, call.fd = fd ∧ call.push = false := by
  have one : ∀ {call : QueueCall}, call.fd = fd ∧ call.push = false →
      ∀ other ∈ [call], other.fd = fd ∧ other.push = false :=
    fun marked other member => List.mem_singleton.mp member ▸ marked
  cases handled with
  | empty => exact ⟨nofun, nofun⟩
  | format msg _ _ _ => exact ⟨nofun, one ⟨rfl, rfl⟩⟩
  | unknown elements name _ _ => exact ⟨nofun, one ⟨rfl, rfl⟩⟩
  | known elements command _ _ _ pushed reply =>
    refine ⟨fun call member => ?_, ?_⟩
    · obtain ⟨_, _, -, -, rfl⟩ := pushed call member
      rfl
    · cases reply with
      | value size value _ _ _ _ _ => exact one ⟨rfl, rfl⟩
      | unanswered _ => exact nofun
      | subscribed channel _ _ => exact one ⟨rfl, rfl⟩
      | range items text _ _ _ => exact one ⟨rfl, rfl⟩
      | quit _ => exact nofun

end Calls

/-! ### One reply -/

section OneReply

variable {server : ZedisServer} {elements : List (RespValue Bytes)}

/-- **A command is answered exactly if it is not one of the silent ones.** -/
theorem one_reply_iff (inv : ServerInv server) (fd : Nat) (nonempty : elements ≠ [])
    (stays : commandOf (.array elements) ≠ some .quit) :
    OneReply server fd (.array elements) ↔ ¬ Silent server elements := by
  obtain ⟨rc, after, pushes, own, ends, emits, handled⟩ :=
    serverHandleCommand_handled inv fd (.array elements)
  obtain ⟨pushed, replied⟩ := handled.marked
  have replies : repliesTo fd server after = own := repliesTo_eq emits pushed replied
  have oneReply : OneReply server fd (.array elements) ↔ ∃ call, own = [call] ∧ 0 < call.n := by
    rw [OneReply]
    simp only [exists_and_left]
    rw [exists_handled_iff ends, replies]
  rw [oneReply]
  cases handled with
  | empty => exact absurd rfl nonempty
  | format _ msg _ noName _ =>
    refine ⟨fun _ => ?_, fun _ => ⟨_, rfl, length_encode_pos _⟩⟩
    rintro ⟨command, named, -⟩
    rw [commandOf, show cmdBulk elements 0 = none from noName] at named
    cases named
  | unknown _ name named unfound =>
    refine ⟨fun _ => ?_, fun _ => ⟨_, rfl, Nat.succ_pos _⟩⟩
    rintro ⟨command, found, -⟩
    cases (commandOf_of_unfound named unfound).symm.trans found
  | known _ command _ _ named _ reply =>
    have silent : Silent server elements ↔ Unanswered server elements command := by
      refine ⟨?_, fun quiet => ⟨command, named, quiet⟩⟩
      rintro ⟨other, named', quiet⟩
      cases named.symm.trans named'
      exact quiet
    rw [silent]
    cases reply with
    | value size value _ _ _ answered _ => exact ⟨fun _ => answered, fun _ => ⟨_, rfl, length_encode_pos _⟩⟩
    | unanswered quiet =>
      refine ⟨?_, fun answered => absurd quiet answered⟩
      rintro ⟨_, empty, -⟩
      cases empty
    | subscribed channel isSubscribe _ =>
      subst isSubscribe
      exact ⟨fun _ => id, fun _ => ⟨_, rfl, Nat.succ_pos _⟩⟩
    | range items text asked printed _ =>
      have positive : 0 < text.length :=
        (Nat.succ_pos _).trans_le (BTree.length_fittingText printed).1.length_le
      refine ⟨fun _ => ?_, fun _ => ⟨_, rfl, positive⟩⟩
      cases command with
      | ping => cases asked
      | echo => cases asked
      | get => cases asked
      | _ => exact id
    | quit isQuit =>
      subst isQuit
      exact absurd named stays

/-- A `PING` with a number gets no reply. -/
theorem ping_number_unanswered : ∃ server, Reachable server ∧ idle server 5 = true ∧
    Parsed (.array [.bulk (ascii "PING"), .integer 1]) ∧
    ¬ OneReply server 5 (.array [.bulk (ascii "PING"), .integer 1]) := by
  have shown : ((sampleServer [sampleClient []]).map fun server => (idle server 5,
      (serverHandleCommand server 5 (.array [.bulk (ascii "PING"), .integer 1])).map fun result =>
        repliesTo 5 server result.2)) = some (true, some []) := by decide +kernel
  obtain ⟨server, -, reach, seen⟩ := exists_sampleServer shown
  obtain ⟨isIdle, quiet⟩ := Prod.mk.inj seen
  have parsed : Parsed (.array [.bulk (ascii "PING"), .integer 1]) :=
    parsed_of_encodable ⟨trivial, ⟨by decide, by decide⟩, trivial⟩ (by decide)
  refine ⟨server, reach, isIdle, parsed, ?_⟩
  rintro ⟨rc, after, call, ends, one, -⟩
  rw [ends, Option.map_some, one] at quiet
  cases quiet

/-- A `PING` with a short text. -/
theorem one_reply_iff_ping : ∃ server, ServerInv server ∧
    (OneReply server 5 (bulks [ascii "PING", ascii "hi"]) ↔
      ¬ Silent server [.bulk (ascii "PING"), .bulk (ascii "hi")]) := by
  obtain ⟨server, -, reach, -⟩ := exists_idleServer
  exact ⟨server, reach.inv, one_reply_iff reach.inv 5 (List.cons_ne_nil _ _) (by decide)⟩

end OneReply

/-! ### What a reply reads -/

section Within

variable {server : ZedisServer}

/-- An unknown command with a long name. -/
def LongUnknown (cmd : RespValue Bytes) : Prop :=
  ∃ elements name, cmd = .array elements ∧ cmdBulk elements 0 = some name ∧ findCommand name = none ∧
    487 < (cstr name).length

theorem encodedCall_within {fd size : Nat} {value : RespValue Bytes}
    (fits : (encode value).length < size) : Within (encodedCall fd size value) := by
  refine ⟨fits.le, ?_⟩
  change (encode value).length ≤ (encode value ++ [0]).length
  rw [List.length_append]
  exact Nat.le_add_right _ _

theorem length_unknownText (name : Bytes) : (unknownText name).length = (cstr name).length + 25 := by
  simp only [unknownText, List.length_append, show (ascii "-ERR unknown command '").length = 22 from rfl,
    show (ascii "'\r\n").length = 3 from rfl]
  omega

theorem unknownCall_within_iff (fd : Nat) (name : Bytes) :
    Within (unknownCall fd name) ↔ (cstr name).length ≤ 487 := by
  have length := length_unknownText name
  have written : (snprintf 512 (unknownText name)).length = min 511 (unknownText name).length + 1 := by
    rw [snprintf, if_neg (by decide), List.length_append, List.length_take, List.length_singleton]
  unfold Within unknownCall
  dsimp only
  rw [written]
  omega

/-- A reply of a handler stays inside what was formatted. -/
theorem Reply.within {fd : Nat} {elements : List (RespValue Bytes)} {command : CommandName}
    {own : List QueueCall} (reply : Reply server fd elements command own) :
    ∀ call ∈ own, Within call := by
  intro call member
  cases reply with
  | value size value _ fits _ _ _ =>
    rw [List.mem_singleton.mp member]
    exact encodedCall_within fits
  | unanswered _ => cases member
  | subscribed channel _ _ =>
    rw [List.mem_singleton.mp member]
    obtain ⟨-, short⟩ := length_subscribeText (length_channelName channel)
    refine ⟨short.le, ?_⟩
    change _ ≤ (_ ++ [(0 : UInt8)]).length
    rw [List.length_append]
    exact Nat.le_add_right _ _
  | range items text _ printed _ =>
    rw [List.mem_singleton.mp member]
    exact ⟨(BTree.length_fittingText printed).2.le, Nat.le_refl _⟩
  | quit _ => cases member

/-- **Every call stays inside what was formatted, unless the name of an unknown command is long.** -/
theorem within_iff (inv : ServerInv server) (fd : Nat) (cmd : RespValue Bytes) :
    (∃ rc after, serverHandleCommand server fd cmd = some (rc, after) ∧
      ∀ call ∈ callsSince server after, Within call) ↔ ¬ LongUnknown cmd := by
  obtain ⟨rc, after, pushes, own, ends, emits, handled⟩ := serverHandleCommand_handled inv fd cmd
  rw [exists_handled_iff ends, emits.callsSince]
  cases handled with
  | empty =>
    refine ⟨fun _ => ?_, fun _ => nofun⟩
    rintro ⟨elements, name, same, named, -⟩
    cases same
    cases named
  | format _ msg _ noName line =>
    refine ⟨fun _ => ?_, fun _ call member => ?_⟩
    · rintro ⟨elements, name, rfl, named, -⟩
      cases named.symm.trans noName
    · rw [List.mem_singleton.mp member]
      refine encodedCall_within ?_
      rw [encode, length_encode_line]
      exact line.2
  | unknown elements name named unfound =>
    rw [List.nil_append, List.forall_mem_singleton, unknownCall_within_iff]
    constructor
    · rintro short ⟨elements', name', same, named', -, long⟩
      cases same
      cases named.symm.trans named'
      omega
    · exact fun short => Nat.not_lt.mp fun long => short ⟨elements, name, rfl, named, unfound, long⟩
  | known elements command _ _ named pushed reply =>
    refine ⟨fun _ => ?_, fun _ call member => ?_⟩
    · rintro ⟨elements', name, same, named', unfound, -⟩
      cases same
      cases (commandOf_of_unfound named' unfound).symm.trans named
    · rcases List.mem_append.mp member with push | replied
      · obtain ⟨_, _, -, fits, rfl⟩ := pushed call push
        exact ⟨fits.le, Nat.le_refl _⟩
      · exact reply.within call replied

/-- The reply to a name of 488 bytes reads beyond its buffer. -/
theorem long_name_reads_beyond : ∃ server, Reachable server ∧ idle server 5 = true ∧
    Parsed (bulks [List.replicate 488 97]) ∧
    ∀ rc after, serverHandleCommand server 5 (bulks [List.replicate 488 97]) = some (rc, after) →
      ∃ call ∈ callsSince server after, call.size < call.n := by
  have shown : ((sampleServer [sampleClient []]).map fun server => (idle server 5,
      (serverHandleCommand server 5 (bulks [List.replicate 488 97])).map fun result =>
        (callsSince server result.2).map fun call => (call.size, call.n))) =
          some (true, some [(512, 513)]) := by decide +kernel
  obtain ⟨server, -, reach, seen⟩ := exists_sampleServer shown
  obtain ⟨isIdle, read⟩ := Prod.mk.inj seen
  refine ⟨server, reach, isIdle, parsed_bulks (by decide +kernel), fun rc after ends => ?_⟩
  rw [ends, Option.map_some] at read
  obtain ⟨call, isCall, sizes⟩ := List.map_eq_singleton_iff.mp (Option.some.inj read)
  refine ⟨call, isCall ▸ List.mem_singleton_self call, ?_⟩
  obtain ⟨size, n⟩ := Prod.mk.inj sizes
  omega

/-- A name of 487 bytes is the longest that stays inside. -/
theorem within_iff_longest : ∃ server, ServerInv server ∧
    ((∃ rc after, serverHandleCommand server 5 (bulks [List.replicate 487 97]) = some (rc, after) ∧
      ∀ call ∈ callsSince server after, Within call) ↔ ¬ LongUnknown (bulks [List.replicate 487 97])) := by
  obtain ⟨server, -, reach, -⟩ := exists_idleServer
  exact ⟨server, reach.inv, within_iff reach.inv 5 (bulks [List.replicate 487 97])⟩

end Within

/-! ### What reaches a connection -/

/-- The bytes that have left or will leave a connection. -/
def outputOf (server : ZedisServer) (fd : Nat) : Option Bytes := (connOf server fd).map sentText

section Delivery

variable {server : ZedisServer} {fd : Nat} {call : QueueCall}

theorem idle_iff : idle server fd = true ↔
    ∃ conn, connOf server fd = some conn ∧ conn.closed = false ∧ conn.writeLen = 0 := by
  rw [idle, Option.any_eq_true]
  simp only [Bool.and_eq_true, Bool.not_eq_true', beq_iff_eq]

/-- The connection of a call, after it. -/
theorem connOf_queueWrite (counted : ∀ conn ∈ server.conns, Counted conn) :
    connOf (queueWrite server call) call.fd =
      (connOf server call.fd).map fun conn => (connQueueWrite conn (call.data server.stack)).2 :=
  find?_changeConn fun conn member isTarget =>
    (connQueueWrite_queued (counted conn member) _).same.fd.trans isTarget

/-- **A call with bytes that fit extends the output of an idle connection by them.** -/
theorem outputOf_queueWrite (counted : ∀ conn ∈ server.conns, Counted conn) (isIdle : idle server call.fd = true)
    (fits : (call.data server.stack).length ≤ zedisConnWriteSize) :
    outputOf (queueWrite server call) call.fd =
      (outputOf server call.fd).map fun output => output ++ call.data server.stack := by
  obtain ⟨conn, found, isOpen, empty⟩ := idle_iff.mp isIdle
  have appended : (writeBufAppend conn (call.data server.stack)).isSome = true :=
    writeBufAppend_of_fits isOpen (by rw [empty, Nat.zero_add]; exact fits)
  have text := (connQueueWrite_queued (counted conn (connOf_spec found).1) (call.data server.stack)).text
  rw [if_pos appended] at text
  rw [outputOf, connOf_queueWrite counted, outputOf, found]
  exact congrArg some text

end Delivery

end Zedis.Server

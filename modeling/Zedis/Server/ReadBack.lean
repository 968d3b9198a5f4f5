/-
**`SET` and `GET`, end to end.**

`set_get_iff`: a `GET` that follows an accepted `SET` of the same key sends back the value, byte for
byte, exactly if the value has at most 4086 bytes and the reply to the `SET` has not hidden it.

* The table takes values of up to 4096 bytes and finds them again, but `reply_bulk` formats in a buffer of
  4096 bytes, which also takes the length line, the line ends and a NUL; for a longer value it sends
  nothing (`long_value_not_sent`).
* Where the `+OK` ends beyond the own bytes of the last write buffer, it is written over the state of the
  first entry of the table, and a value that is stored there is no longer found (`ok_hides_value`).
-/

import Zedis.Server.Shared

namespace Zedis.Server

open Zedis.Lib Zedis.HashTable Zedis.Reply Zedis.Resp Zedis.Connection

/-- A `SET` of the key and the value that was answered with `+OK`, where `last` is the connection whose
write buffer is the last block. -/
structure Accepted (last : Option Nat) (server : ZedisServer) (fd : Nat) (set : RespValue Bytes)
    (key value : Bytes) (stored : ZedisServer) : Prop where
  command : commandOf set = some .set
  key : cmdBulk (elementsOf set) 1 = some key
  value : cmdBulk (elementsOf set) 2 = some value
  ends : ∃ rc, sharedHandle last server fd set = some (rc, stored)
  ok : (callsSince server stored).map (fun call => call.data server.stack) =
    [encode (.simple (ascii "OK"))]

/-- The command is answered with one call, which adds the bulk string of the value to the output of the
connection. -/
def SendsBack (last : Option Nat) (server : ZedisServer) (fd : Nat) (cmd : RespValue Bytes)
    (value : Bytes) : Prop :=
  ∃ after call, sharedHandle last server fd cmd = some (0, after) ∧
    callsSince server after = [call] ∧ call.fd = fd ∧ call.data server.stack = encode (.bulk value) ∧
    outputOf after fd = (outputOf server fd).map fun output => output ++ encode (.bulk value)

/-- The `+OK` of a `SET`. -/
def okCall (fd : Nat) : QueueCall := encodedCall fd 512 (.simple (ascii "OK"))

/-- The command is answered with one call, which adds `text` to the output of the connection. -/
def Answers (server : ZedisServer) (fd : Nat) (cmd : RespValue Bytes) (text : Bytes) : Prop :=
  ∃ after call, serverHandleCommand server fd cmd = some (0, after) ∧
    callsSince server after = [call] ∧ call.fd = fd ∧ call.data server.stack = text ∧
    outputOf after fd = (outputOf server fd).map fun output => output ++ text

/-- Bulk strings with the same encoding are the same. -/
theorem bulk_injective {a b : Bytes} (small : a.length < 2 ^ 62)
    (same : encode (.bulk a) = encode (.bulk b)) : a = b := by
  have short : (decimal a.length).length ≤ 19 :=
    (decimal_spec a.length).short 18 (small.trans (by decide))
  have lengths := congrArg List.length same
  rw [length_encode_bulk, length_encode_bulk] at lengths
  have sized : b.length < 2 ^ 63 := by omega
  have decoded := @decode_encode (.bulk a) trivial (show a.length < 2 ^ 63 by omega) []
  rw [same, @decode_encode (.bulk b) trivial sized] at decoded
  cases decoded
  rfl

theorem null_ne_bulk (data : Bytes) : encode .null ≠ encode (.bulk data) := by
  intro same
  have lengths := congrArg List.length same
  rw [length_encode_bulk, show (encode .null).length = 5 from rfl] at lengths
  have decoded := @decode_encode (.bulk data) trivial (show data.length < 2 ^ 63 by omega) []
  rw [← same, @decode_encode .null trivial trivial] at decoded
  cases decoded

/-! ### One call -/

section Call

variable {last : Option Nat} {server base : ZedisServer} {fd : Nat} {cmd : RespValue Bytes}
  {call : QueueCall}

/-- A bulk string that fits is an answer. -/
theorem answers_bulk (inv : ServerInv server) (isIdle : idle server fd = true) {text : Bytes}
    (short : text.length ≤ 4086) (runs : serverHandleCommand server fd cmd = some (0,
      queueWrite server (encodedCall fd 4096 (.bulk text)))) :
    Answers server fd cmd (encode (.bulk text)) := by
  have data := encodedCall_data fd 4096 (.bulk text) server.stack
  have fits : ((encodedCall fd 4096 (.bulk text)).data server.stack).length ≤ zedisConnWriteSize := by
    rw [data]
    exact ((length_bulk_lt_iff text).mpr short).le
  have grown := outputOf_queueWrite inv.counted isIdle fits
  rw [data] at grown
  exact ⟨_, _, runs, callsSince_queueWrite server _, rfl, data, grown⟩

/-- A `SET` or a `GET` that makes one call. -/
theorem sharedHandle_call {command : CommandName} (named : commandOf cmd = some command)
    (kind : command = .set ∨ command = .get)
    (runs : serverHandleCommand server fd cmd = some (0, queueWrite base call))
    (conns : base.conns = server.conns) (calls : base.calls = server.calls) :
    sharedHandle last server fd cmd = some (0, sharedWrite last base call) := by
  have notQuit : commandOf cmd ≠ some .quit := by
    rw [named]
    rcases kind with rfl | rfl <;> decide
  have notSubscribe : commandOf cmd ≠ some .subscribe := by
    rw [named]
    rcases kind with rfl | rfl <;> decide
  have one : callsSince server (queueWrite base call) = [call] := by
    rw [callsSince, ← calls]
    exact callsSince_queueWrite base call
  have start : beforeCalls server fd cmd (queueWrite base call) = base := by
    unfold beforeCalls
    rw [subscribing_of_other notSubscribe, ← conns, ← calls]
    rfl
  simp only [sharedHandle, runs, Option.map_some, if_neg notQuit, one, start, List.foldl_cons,
    List.foldl_nil]

/-- A `GET` that makes none. -/
theorem sharedHandle_silent (isGet : commandOf cmd = some .get) {after : ZedisServer} {rc : Int}
    (quiet : serverHandleCommand server fd cmd = some (0, server))
    (ends : sharedHandle last server fd cmd = some (rc, after)) : callsSince server after ≠ [call] := by
  have none : callsSince server server = [] := List.drop_length
  have notQuit : commandOf cmd ≠ some .quit := by
    rw [isGet]
    decide
  simp only [sharedHandle, quiet, Option.map_some, if_neg notQuit, none, List.foldl_nil,
    Option.some.injEq, Prod.mk.injEq] at ends
  rw [← ends.2, callsSince, show (beforeCalls server fd cmd server).calls = server.calls from rfl,
    List.drop_length]
  exact (List.cons_ne_nil call []).symm

variable (last server call) in
/-- What a call leaves: the calls, the connections, and the size of the table. -/
theorem sharedWrite_spec : (sharedWrite last server call).calls = server.calls ++ [call] ∧
    (sharedWrite last server call).kv.capacity = server.kv.capacity ∧
    ((sharedWrite last server call).conns = (queueWrite server call).conns ∨
      (sharedWrite last server call).conns = (queueWrite (loadShared server call.fd) call).conns) := by
  unfold sharedWrite saveShared
  split
  · split
    · exact ⟨rfl, rfl, Or.inr rfl⟩
    · exact ⟨rfl, rfl, Or.inr rfl⟩
  · exact ⟨rfl, rfl, Or.inl rfl⟩

theorem callsSince_sharedWrite (calls : base.calls = server.calls) :
    callsSince server (sharedWrite last base call) = [call] := by
  rw [callsSince, (sharedWrite_spec last base call).1, calls, List.drop_left]

theorem counted_queueWrite (counted : ∀ conn ∈ server.conns, Counted conn) :
    ∀ conn ∈ (queueWrite server call).conns, Counted conn := by
  intro conn member
  obtain ⟨old, listed, ⟨-, rfl⟩ | ⟨-, rfl⟩⟩ := mem_changeConn member
  · exact (connQueueWrite_queued (counted old listed) _).counted
  · exact counted conn listed

theorem counted_loadShared (counted : ∀ conn ∈ server.conns, Counted conn) :
    ∀ conn ∈ (loadShared server fd).conns, Counted conn := by
  intro conn member
  obtain ⟨old, listed, ⟨-, rfl⟩ | ⟨-, rfl⟩⟩ := mem_changeConn member
  · exact ⟨(counted old listed).sent, (counted old listed).room⟩
  · exact counted conn listed

theorem counted_sharedWrite (counted : ∀ conn ∈ server.conns, Counted conn) :
    ∀ conn ∈ (sharedWrite last server call).conns, Counted conn := by
  rcases (sharedWrite_spec last server call).2.2 with same | same
  · rw [same]
    exact counted_queueWrite counted
  · rw [same]
    exact counted_queueWrite (counted_loadShared counted)

/-- The shared bytes are not pending on an idle connection. -/
theorem outputOf_loadShared (isIdle : idle server fd = true) :
    idle (loadShared server fd) fd = true ∧ outputOf (loadShared server fd) fd = outputOf server fd := by
  obtain ⟨conn, found, isOpen, empty⟩ := idle_iff.mp isIdle
  have loaded : connOf (loadShared server fd) fd =
      some (withShared (headerBytes (server.kv.entries 0)) conn) :=
    (@find?_changeConn server.conns fd (withShared (headerBytes (server.kv.entries 0)))
      fun _ _ isTarget => isTarget).trans (congrArg _ found)
  refine ⟨idle_iff.mpr ⟨_, loaded, isOpen, empty⟩, ?_⟩
  have none : ∀ buf : Nat → UInt8, segment buf conn.writeSent (conn.writeLen - conn.writeSent) = [] := by
    intro buf
    rw [empty, Nat.zero_sub, segment_zero]
  rw [outputOf, outputOf, loaded, found]
  refine congrArg some (congrArg (conn.socket.accepted ++ ·) ?_)
  exact (none _).trans (none _).symm

/-- **A call with bytes that fit extends the output of an idle connection by them**, also where they are
shared. -/
theorem outputOf_sharedWrite (counted : ∀ conn ∈ server.conns, Counted conn)
    (isIdle : idle server call.fd = true)
    (fits : (call.data server.stack).length ≤ zedisConnWriteSize) :
    outputOf (sharedWrite last server call) call.fd =
      (outputOf server call.fd).map fun output => output ++ call.data server.stack := by
  rcases (sharedWrite_spec last server call).2.2 with same | same
  · rw [outputOf, connOf, same]
    exact outputOf_queueWrite counted isIdle fits
  · obtain ⟨stillIdle, sameOutput⟩ := outputOf_loadShared isIdle
    rw [outputOf, connOf, same, ← sameOutput]
    exact outputOf_queueWrite (counted_loadShared counted) stillIdle fits

end Call

/-! ### The two commands -/

section SetGet

variable {last : Option Nat} {server stored : ZedisServer} {fd : Nat} {cmd : RespValue Bytes}
  {key value : Bytes}

/-- `+OK` is the reply of a `zedis_ht_set` that returned `0`. -/
theorem Accepted.stores (inv : ServerInv server)
    (accepted : Accepted last server fd cmd key value stored) : ∃ kv,
      zedisHtSet server.kv key value = some (0, kv) ∧
        stored = sharedWrite last { server with kv := kv } (okCall fd) := by
  cases cmd with
  | array elements =>
    obtain ⟨isSet, isKey, isValue, ⟨rc, ends⟩, ok⟩ := accepted
    change cmdBulk elements 1 = some key at isKey
    change cmdBulk elements 2 = some value at isValue
    obtain ⟨status, kv, sets, -⟩ := zedisHtSet_inv inv.kv key value
    have runs : serverHandleCommand server fd (.array elements) = some (if status ≠ 0 then
        replyError { server with kv := kv } fd (ascii "ERR hash table full or value too large")
      else replySimple { server with kv := kv } fd (ascii "OK")) := by
      simp only [serverHandleCommand_known fd isSet, CommandName.fn, setCommand, isKey, isValue, sets,
        Option.map_some]
    refine ⟨kv, ?_⟩
    by_cases refused : status ≠ 0
    · rw [if_pos refused, replyError_eq (by decide)] at runs
      cases ends.symm.trans (sharedHandle_call isSet (Or.inl rfl) runs rfl rfl)
      rw [callsSince_sharedWrite (show ({ server with kv := kv } : ZedisServer).calls = server.calls from
        rfl), List.map_singleton, encodedCall_data] at ok
      exact absurd (List.cons.inj (List.cons.inj ok).1).1 (by decide)
    · rw [if_neg refused, replySimple_eq (by decide)] at runs
      cases ends.symm.trans (sharedHandle_call isSet (Or.inl rfl) runs rfl rfl)
      rw [sets, Decidable.not_not.mp refused]
      exact ⟨rfl, rfl⟩
  | _ => cases accepted.command

theorem Accepted.positive (inv : ServerInv server)
    (accepted : Accepted last server fd cmd key value stored) : 0 < stored.kv.capacity := by
  obtain ⟨kv, sets, rfl⟩ := accepted.stores inv
  rw [(sharedWrite_spec last _ _).2.1]
  exact (zedisHtSet_stored inv.kv sets).1

/-- A `+OK` within the own bytes leaves the value where it was stored. -/
theorem Accepted.found (inv : ServerInv server)
    (accepted : Accepted last server fd cmd key value stored)
    (inside : spillsAt last server (okCall fd) = false) : ∃ d, StoredAt stored.kv key value d := by
  obtain ⟨kv, sets, rfl⟩ := accepted.stores inv
  have plain : sharedWrite last { server with kv := kv } (okCall fd) =
      queueWrite { server with kv := kv } (okCall fd) :=
    if_neg fun beyond => Bool.false_ne_true (inside.symm.trans beyond)
  rw [plain]
  exact (zedisHtSet_stored inv.kv sets).2

/-- What `get_command` copies, up to the last byte of its buffer. -/
theorem readBuffer_copyOut (stack : Nat → UInt8) (short : value.length < zedisHtMaxValue) :
    readBuffer stack (copyOut value zedisHtMaxValue).valueOut (copyOut value zedisHtMaxValue).valueLen =
      value := by
  have copied : (copyOut value zedisHtMaxValue).valueOut = value ++ [0] := by
    rw [copyOut, if_pos (by decide), if_pos short, List.take_length]
  rw [copied]
  exact readBuffer_of_front (List.prefix_append _ _) stack

/-- What a `GET` does, in any state of the table. -/
theorem getCommand_runs (isGet : commandOf cmd = some .get)
    (sameKey : cmdBulk (elementsOf cmd) 1 = some key) :
    serverHandleCommand server fd cmd = (zedisHtGet server.kv key zedisHtMaxValue).map fun found =>
      (0, found.elim (queueWrite server (encodedCall fd 64 .null)) fun hit =>
        if hit.valueLen ≤ 4086 then queueWrite server (encodedCall fd 4096
          (.bulk (readBuffer server.stack hit.valueOut hit.valueLen))) else server) := by
  cases cmd with
  | array elements =>
    change cmdBulk elements 1 = some key at sameKey
    simp only [serverHandleCommand_known fd isGet, CommandName.fn, getCommand, sameKey]
    refine congrArg (fun reply => Option.map reply _) (funext fun found => ?_)
    cases found with
    | none => exact replyNull_eq
    | some hit =>
      dsimp only
      rw [replyBulk_eq, length_readBuffer]
      rfl
  | _ => cases isGet

/-- **A `GET` sends a value back exactly if it has at most 4086 bytes and is found**, in any state of the
table. -/
theorem sendsBack_iff (counted : ∀ conn ∈ server.conns, Counted conn) (positive : 0 < server.kv.capacity)
    (isGet : commandOf cmd = some .get) (sameKey : cmdBulk (elementsOf cmd) 1 = some key)
    (isIdle : idle server fd = true) :
    SendsBack last server fd cmd value ↔ value.length ≤ 4086 ∧ ∃ d, StoredAt server.kv key value d := by
  have runs := @getCommand_runs server fd cmd key isGet sameKey
  constructor
  · rintro ⟨after, call, ends, one, -, said, -⟩
    cases got : zedisHtGet server.kv key zedisHtMaxValue with
    | none =>
      rw [got, Option.map_none] at runs
      simp only [sharedHandle, runs, Option.map_none] at ends
      cases ends
    | some found =>
      rw [got, Option.map_some] at runs
      cases found with
      | none =>
        -- the reply is null
        cases ends.symm.trans (sharedHandle_call isGet (Or.inr rfl) runs rfl rfl)
        rw [callsSince_sharedWrite rfl] at one
        cases one
        rw [encodedCall_data] at said
        exact absurd said (null_ne_bulk value)
      | some hit =>
        obtain ⟨d, found, rfl⟩ := found_of_get got
        by_cases short : (walkEntry server.kv key d).value.length ≤ 4086
        · rw [Option.elim_some, if_pos (show (copyOut _ _).valueLen ≤ 4086 from short),
            readBuffer_copyOut server.stack (short.trans_lt (by decide))] at runs
          cases ends.symm.trans (sharedHandle_call isGet (Or.inr rfl) runs rfl rfl)
          rw [callsSince_sharedWrite rfl] at one
          cases one
          rw [encodedCall_data] at said
          have same := bulk_injective (short.trans_lt (by decide)) said
          exact ⟨same ▸ short, d, found, same⟩
        · rw [Option.elim_some, if_neg (show ¬ (copyOut _ _).valueLen ≤ 4086 from short)] at runs
          exact absurd one (sharedHandle_silent isGet runs ends)
  · rintro ⟨short, d, found, isValue⟩
    have got := zedisHtGet_of_found positive found zedisHtMaxValue
    have whole := @readBuffer_copyOut value server.stack (short.trans_lt (by decide))
    rw [got, isValue, Option.map_some, Option.elim_some,
      if_pos (show (copyOut value zedisHtMaxValue).valueLen ≤ 4086 from short), whole] at runs
    have data := encodedCall_data fd 4096 (.bulk value) server.stack
    have fits : ((encodedCall fd 4096 (.bulk value)).data server.stack).length ≤ zedisConnWriteSize := by
      rw [data]
      exact ((length_bulk_lt_iff value).mpr short).le
    have grown := @outputOf_sharedWrite last server (encodedCall fd 4096 (.bulk value)) counted isIdle fits
    rw [data] at grown
    exact ⟨_, _, sharedHandle_call isGet (Or.inr rfl) runs rfl rfl, callsSince_sharedWrite rfl, rfl, data,
      grown⟩

/-- **What follows an accepted `SET`**, wherever its `+OK` was written. -/
theorem Accepted.sendsBack_iff (inv : ServerInv server) {set : RespValue Bytes} {fd' : Nat}
    (accepted : Accepted last server fd set key value stored) (isGet : commandOf cmd = some .get)
    (sameKey : cmdBulk (elementsOf cmd) 1 = some key) (isIdle : idle stored fd' = true) :
    SendsBack last stored fd' cmd value ↔ value.length ≤ 4086 ∧ ∃ d, StoredAt stored.kv key value d := by
  have positive := accepted.positive inv
  obtain ⟨kv, sets, rfl⟩ := accepted.stores inv
  exact Server.sendsBack_iff (counted_sharedWrite inv.counted) positive isGet sameKey isIdle

/-- What client 5, which has the last write buffer, is answered to a `SET`; whether `reader` is idle after
it; and whether the answer ends beyond the own bytes. -/
def sampleSet (events : List ServerEvent) (reader : Nat) (key value : Bytes) :
    Option (List Bytes × Bool × Bool) :=
  (sampleServer events).bind fun server =>
    (sharedHandle (some 5) server 5 (bulks [ascii "SET", key, value])).map fun result =>
      ((callsSince server result.2).map fun call => call.data server.stack, idle result.2 reader,
        spillsAt (some 5) server (okCall 5))

theorem accepted_sampleSet {events : List ServerEvent} {reader : Nat} {beyond : Bool}
    (replies : sampleSet events reader key value =
      some ([encode (.simple (ascii "OK"))], true, beyond)) : ∃ server stored,
      sampleServer events = some server ∧ Reachable server ∧ idle stored reader = true ∧
        Accepted (some 5) server 5 (bulks [ascii "SET", key, value]) key value stored ∧
        spillsAt (some 5) server (okCall 5) = beyond := by
  obtain ⟨server, returned, replies⟩ := Option.bind_eq_some_iff.mp replies
  obtain ⟨⟨rc, stored⟩, ends, replies⟩ := Option.map_eq_some_iff.mp replies
  obtain ⟨ok, rest⟩ := Prod.mk.inj replies
  obtain ⟨isIdle, isBeyond⟩ := Prod.mk.inj rest
  have isSet : commandOf (bulks [ascii "SET", key, value]) = some .set :=
    show findCommand (ascii "SET") = some .set by decide
  exact ⟨server, stored, returned, reachable_sampleServer returned, isIdle,
    ⟨isSet, rfl, rfl, ⟨rc, ends⟩, ok⟩, isBeyond⟩

theorem commandOf_get (key : Bytes) : commandOf (bulks [ascii "GET", key]) = some .get :=
  show findCommand (ascii "GET") = some .get by decide

/-- A `SET` of client 5, which has the last write buffer, is accepted, and a `GET` that follows it on an
idle connection does not send the value back. -/
def LosesValue (server : ZedisServer) (reader : Nat) (key value : Bytes) : Prop :=
  ∃ stored, idle stored reader = true ∧
    Accepted (some 5) server 5 (bulks [ascii "SET", key, value]) key value stored ∧
    ¬ SendsBack (some 5) stored reader (bulks [ascii "GET", key]) value

/-- A value of 4087 bytes is accepted and not sent back. -/
theorem long_value_not_sent : ∃ server, Reachable server ∧
    LosesValue server 5 (ascii "k") (List.replicate 4087 97) := by
  have replies : sampleSet [sampleClient [.takes 9]] 5 (ascii "k") (List.replicate 4087 97) =
      some ([encode (.simple (ascii "OK"))], true, false) := by decide +kernel
  obtain ⟨server, stored, -, reach, isIdle, accepted, -⟩ := accepted_sampleSet replies
  refine ⟨server, reach, stored, isIdle, accepted, fun sent => ?_⟩
  have short := ((accepted.sendsBack_iff reach.inv (commandOf_get _) rfl isIdle).mp sent).1
  rw [List.length_replicate] at short
  omega

/-- Client 5 has 4085 bytes pending, and client 6 none. -/
def samplePending : List ServerEvent :=
  [sampleClient [.again], sampleOther, .command 5 (bulks [ascii "ECHO", List.replicate 4076 97])]

/-- The `+OK` of a `SET` hides the value: the home of the key `e` is the first entry. -/
theorem ok_hides_value : ∃ server, Reachable server ∧ spillsAt (some 5) server (okCall 5) = true ∧
    LosesValue server 6 (ascii "e") (ascii "v") := by
  have replies : sampleSet samplePending 6 (ascii "e") (ascii "v") =
      some ([encode (.simple (ascii "OK"))], true, true) := by decide +kernel
  obtain ⟨server, stored, returned, reach, isIdle, accepted, beyond⟩ := accepted_sampleSet replies
  have shown : (sampleServer samplePending).bind (fun server =>
      (sharedHandle (some 5) server 5 (bulks [ascii "SET", ascii "e", ascii "v"])).map fun result =>
        zedisHtGet result.2.kv (ascii "e") zedisHtMaxValue) = some (some none) := by decide +kernel
  obtain ⟨rc, ends⟩ := accepted.ends
  rw [returned, Option.bind_some, ends, Option.map_some] at shown
  refine ⟨server, reach, beyond, stored, isIdle, accepted, fun sent => ?_⟩
  obtain ⟨-, d, found, -⟩ := (accepted.sendsBack_iff reach.inv (commandOf_get _) rfl isIdle).mp sent
  rw [zedisHtGet_of_found (accepted.positive reach.inv) found] at shown
  cases shown

end SetGet

end Zedis.Server

/-
**Range requests and the write buffer.**

`ZRANGE` and `LRANGE` print to a buffer of 8192 bytes, and the write buffer of a connection takes 4096.
`range_stays_open_iff`: a request on an open connection with an empty write buffer, whose socket does
not fail, leaves it open exactly if what it asks for takes at most 4096 bytes, or if it is an `LRANGE`
for 8192 bytes or more: that is refused with a short error. `ZRANGE` drops the members that do not fit
in 8192 bytes instead, and what is left is still too long.
-/

import Zedis.Server.Replies

namespace Zedis.Server

open Zedis.Lib Zedis.BTree Zedis.AppendLog Zedis.Registry Zedis.Reply Zedis.Resp Zedis.Connection

/-- What a range request asks for fits in the write buffer, or is refused. -/
def Deliverable (server : ZedisServer) (elements : List (RespValue Bytes)) : CommandName → Prop
  | .zrange => ∀ items, requested server elements .zrange = some items →
      (rangeText items).length ≤ zedisConnWriteSize
  | .lrange => ∀ items, requested server elements .lrange = some items →
      (rangeText items).length ≤ zedisConnWriteSize ∨ 8192 ≤ (rangeText items).length
  | _ => True

/-- **The replies fit in the write buffer, and the connection is open after the command.** -/
def StaysOpen (server : ZedisServer) (fd : Nat) (cmd : RespValue Bytes) : Prop :=
  ∃ rc after, serverHandleCommand server fd cmd = some (rc, after) ∧
    (∀ call ∈ callsSince server after, call.n ≤ zedisConnWriteSize) ∧
    ∃ conn, connOf after fd = some conn ∧ conn.closed = false

/-! ### Lengths -/

section Lengths

theorem length_bulkText_member {data : Bytes} (short : data.length < zedisBtreeMaxMember) :
    (bulkText data).length ≤ 54 := by
  unfold zedisBtreeMaxMember at short
  have digits := (decimal_spec data.length).short 1 (by omega)
  have length := length_bulkText_le data
  omega

/-- **What `ZRANGE` sends fits exactly if all it was asked for does.** -/
theorem fittingText_le_iff {items : List Bytes} {text : Bytes}
    (members : ∀ item ∈ items, item.length < zedisBtreeMaxMember)
    (printed : fittingText items 8192 = some text) :
    text.length ≤ zedisConnWriteSize ↔ (rangeText items).length ≤ zedisConnWriteSize := by
  unfold zedisConnWriteSize
  by_cases short : (rangeText items).length < 8192
  · rw [fittingText_of_fits short] at printed
    rw [Option.some.inj printed]
  · -- some members were left out, so less than one member's text is free in the buffer
    obtain ⟨header, isHeader, rfl⟩ := Option.map_eq_some_iff.mp printed
    obtain ⟨headerShort, same⟩ := Option.ite_none_left_eq_some.mp isHeader
    obtain rfl := Option.some.inj same
    have full := foldl_fitting_full (items.map bulkText) (arrayHeader items.length)
      (fun text member => by
        obtain ⟨item, isItem, rfl⟩ := List.mem_map.mp member
        exact length_bulkText_member (members item isItem))
      (Nat.not_lt.mp short) (Nat.not_le.mp headerShort)
    constructor
    · intro fits
      omega
    · intro fits
      omega

end Lengths

/-! ### The calls -/

section Ranges

variable {server : ZedisServer} (inv : ServerInv server) (fd : Nat)

theorem length_error_call {msg : Bytes} (line : Line msg) :
    (encodedCall fd 512 (.error msg)).n ≤ zedisConnWriteSize := by
  have short := line.2
  change (encode (.error msg)).length ≤ 4096
  rw [encode, length_encode_line]
  omega

include inv

/-- A range request makes one call. -/
theorem range_call (elements : List (RespValue Bytes)) {command : CommandName}
    (isRange : command = .zrange ∨ command = .lrange) :
    ∃ call, command.fn server fd elements = some (0, queueWrite server call) ∧ call.fd = fd ∧
      (call.n ≤ zedisConnWriteSize ↔ Deliverable server elements command) := by
  obtain ⟨⟨zindex, zinv⟩, -⟩ := inv.registries
  cases args : rangeArgs elements with
  | none =>
    have unasked : ∀ items, requested server elements command ≠ some items := by
      intro items asked
      rcases isRange with rfl | rfl
      all_goals
        rw [requested, args] at asked
        cases asked
    obtain ⟨msg, runs, line⟩ : ∃ msg, command.fn server fd elements =
        some (replyError server fd msg) ∧ Line msg := by
      rcases isRange with rfl | rfl
      · rw [CommandName.fn, zrangeCommand]
        exact rangeCommand_error fd elements args (by decide)
      · rw [CommandName.fn, lrangeCommand]
        exact rangeCommand_error fd elements args (by decide)
    rw [replyError_eq line] at runs
    refine ⟨_, runs, rfl, fun _ => ?_, fun _ => length_error_call fd line⟩
    rcases isRange with rfl | rfl
    · exact fun items asked => absurd asked (unasked items)
    · exact fun items asked => absurd asked (unasked items)
  | some arg =>
    obtain ⟨key, start, stop⟩ := arg
    rcases isRange with rfl | rfl
    · have asked : requested server elements .zrange =
          some (slice (zsetItems server.zsets key) start stop) := by rw [requested, args]; rfl
      obtain ⟨text, runs, printed⟩ := zrangeCommand_sends inv fd elements args
      refine ⟨_, runs, rfl, ?_⟩
      have members : ∀ item ∈ slice (zsetItems server.zsets key) start stop,
          item.length < zedisBtreeMaxMember :=
        fun item member => length_of_zsetItems zinv (mem_of_slice member)
      change text.length ≤ _ ↔ _
      rw [fittingText_le_iff members printed]
      refine ⟨fun fits items asked' => ?_, fun fits => fits _ asked⟩
      cases asked.symm.trans asked'
      exact fits
    · have asked : requested server elements .lrange =
          some (slice (listItems server.lists server.log key) start stop) := by rw [requested, args]; rfl
      obtain ⟨failed, runs, line⟩ := lrangeCommand_sends inv fd elements args
      have deliverable : Deliverable server elements .lrange ↔
          (rangeText (slice (listItems server.lists server.log key) start stop)).length ≤
              zedisConnWriteSize ∨
            8192 ≤ (rangeText (slice (listItems server.lists server.log key) start stop)).length := by
        refine ⟨fun fits => fits _ asked, fun fits items asked' => ?_⟩
        cases asked.symm.trans asked'
        exact fits
      rw [deliverable]
      by_cases long : 8192 ≤ (rangeText (slice (listItems server.lists server.log key) start stop)).length
      · rw [formatted, if_pos long, sendRange, replyError_eq line] at runs
        exact ⟨_, runs, rfl, fun _ => Or.inr long, fun _ => length_error_call fd line⟩
      · rw [formatted, if_neg long, sendRange] at runs
        exact ⟨_, runs, rfl, Or.inl, fun fits => fits.resolve_right long⟩

/-- A reply that fits was asked for. -/
theorem StaysOpen.deliverable {fd : Nat} {cmd : RespValue Bytes} {command : CommandName}
    (isRange : command = .zrange ∨ command = .lrange) (named : commandOf cmd = some command)
    (stays : StaysOpen server fd cmd) : Deliverable server (elementsOf cmd) command := by
  cases cmd with
  | array elements =>
    obtain ⟨call, runs, -, fits⟩ := range_call inv fd elements isRange
    rw [← serverHandleCommand_known fd named] at runs
    obtain ⟨rc, after, ends, small, -⟩ := stays
    rw [runs] at ends
    cases ends
    rw [callsSince_queueWrite] at small
    exact fits.mp (small call (List.mem_singleton_self call))
  | _ => cases named

/-- **A range request leaves an idle connection open exactly if what it asks for can be delivered.** -/
theorem range_stays_open_iff {cmd : RespValue Bytes} {command : CommandName}
    (isRange : command = .zrange ∨ command = .lrange) (named : commandOf cmd = some command)
    (isIdle : idle server fd = true)
    (sound : ∀ conn, connOf server fd = some conn → WriteAnswer.fails ∉ conn.socket.answers) :
    StaysOpen server fd cmd ↔ Deliverable server (elementsOf cmd) command := by
  refine ⟨fun stays => stays.deliverable inv isRange named, fun deliverable => ?_⟩
  cases cmd with
  | array elements =>
    obtain ⟨call, runs, rfl, fits⟩ := range_call inv fd elements isRange
    rw [← serverHandleCommand_known call.fd named] at runs
    obtain ⟨conn, found, isOpen, empty⟩ := idle_iff.mp isIdle
    have small := fits.mpr deliverable
    refine ⟨0, _, runs, fun other member => ?_, ?_⟩
    · rw [callsSince_queueWrite] at member
      rwa [List.mem_singleton.mp member]
    · refine ⟨_, (connOf_queueWrite inv.counted).trans (congrArg _ found), ?_⟩
      refine (connQueueWrite_open_iff isOpen (sound conn found)).mpr ?_
      rwa [empty, Nat.zero_add, QueueCall.data, length_readBuffer]
  | _ => cases named

end Ranges

/-! ### A list that is too long -/

section Sample

variable {server after : ZedisServer} {val : Bytes}

/-- Every element of every list has the value `val`, in a log of 8192 bytes. -/
def AllValues (val : Bytes) (server : ZedisServer) : Prop :=
  ∃ written, SharedOk 8192 ⟨server.log, server.lists.lists⟩ written ∧
    ∀ i, ∀ record ∈ written i, record.2 = val

/-- An `LPUSH` leaves what `zedis_list_reg_lpush` does. -/
theorem lpushCommand_stores (inv : ServerInv server) {fd : Nat} {elements : List (RespValue Bytes)}
    {key : Bytes} (first : cmdBulk elements 1 = some key) (second : cmdBulk elements 2 = some val)
    {rc : Int} (runs : lpushCommand server fd elements = some (rc, after)) :
    ∃ status, zedisListRegLpush server.lists server.log key val =
      some (status, after.lists, after.log) := by
  obtain ⟨-, ⟨lindex, lok⟩⟩ := inv.registries
  obtain ⟨_, _, _, status, lists, log, pushed, -, kept, -⟩ :=
    zedisListRegLpush_cases lok server.log key val
  obtain ⟨len, measured⟩ := zedisListRegLlen_returns kept key
  refine ⟨status, pushed.trans ?_⟩
  simp only [lpushCommand, first, second, pushed, Option.bind_some] at runs
  by_cases refused : status ≠ 0
  · rw [if_pos refused, replyError_eq (by decide)] at runs
    cases runs
    rfl
  · rw [if_neg refused, measured, Option.map_some, replyInteger_eq] at runs
    cases runs
    rfl

theorem AllValues.push (inv : ServerInv server) (all : AllValues val server) {fd : Nat}
    {elements : List (RespValue Bytes)} {key : Bytes} (first : cmdBulk elements 1 = some key)
    (second : cmdBulk elements 2 = some val) {rc : Int}
    (runs : lpushCommand server fd elements = some (rc, after)) : AllValues val after := by
  obtain ⟨status, stored⟩ := lpushCommand_stores inv first second runs
  obtain ⟨-, ⟨lindex, lok⟩⟩ := inv.registries
  obtain ⟨_, _, _, status', lists, log, pushed, -, -, -, cases⟩ :=
    zedisListRegLpush_cases lok server.log key val
  rw [stored] at pushed
  cases pushed
  obtain ⟨written, ok, values⟩ := all
  rcases cases with ⟨-, sameLists, sameLog, -⟩ | ⟨i, -, -, accepted, pushedLists, pushedLog⟩
  · rw [AllValues, sameLists, sameLog]
    exact ⟨written, ok, values⟩
  · rw [AllValues, pushedLists, pushedLog]
    refine ⟨Function.update written i ((server.log.writePos, val) :: written i),
      ⟨ok.capacity_eq, ok.capacity_eq ▸ accepted.room,
        listsOk_push ok.lists i accepted (ok.open32 (by decide) accepted)⟩, fun j record member => ?_⟩
    by_cases same : j = i
    · rw [same, Function.update_self] at member
      rcases List.mem_cons.mp member with rfl | old
      · rfl
      · exact values i record old
    · rw [Function.update_of_ne same] at member
      exact values j record member

/-- A socket without answers does not fail. -/
theorem sound_of_answers {fd : Nat}
    (answers : ((connOf server fd).map fun conn => conn.socket.answers) = some []) :
    ∀ conn, connOf server fd = some conn → WriteAnswer.fails ∉ conn.socket.answers := by
  intro conn found
  rw [found] at answers
  have none : conn.socket.answers = [] := Option.some.inj answers
  rw [none]
  exact List.not_mem_nil

/-- A client, and eight pushes of 512 bytes to a list. -/
def samplePushes : List ServerEvent :=
  sampleClient (List.replicate 8 (.takes 9)) ::
    List.replicate 8 (.command 5 (bulks [ascii "LPUSH", ascii "l", List.replicate 512 97]))

theorem allValues_samplePushes (returned : sampleServer samplePushes = some server) :
    AllValues (List.replicate 512 97) server := by
  obtain ⟨start, made, replayed⟩ := Option.bind_eq_some_iff.mp returned
  have created := zedisCreate_created made
  obtain ⟨mapped, log⟩ := created.log
  have empty : AllValues (List.replicate 512 97) start := by
    refine ⟨fun _ => [], ?_, fun _ _ => nofun⟩
    rw [created.fresh.lists_empty]
    exact .start log
  have run : Run serverStep (fun _ event => (∃ answers, event = sampleClient answers) ∨
      event = .command 5 (bulks [ascii "LPUSH", ascii "l", List.replicate 512 97])) start
      samplePushes server := by
    refine Run.of_replay (fun _ event member => ?_) replayed
    rcases List.mem_cons.mp member with isClient | isPush
    · exact Or.inl ⟨_, isClient⟩
    · exact Or.inr (List.eq_of_mem_replicate isPush)
  refine (run.invariant (fun server => ServerInv server ∧ AllValues (List.replicate 512 97) server)
    (fun server event next inv kind taken => ⟨inv.1.step taken, ?_⟩) ⟨created.inv, empty⟩).2
  rcases kind with ⟨answers, rfl⟩ | rfl
  · obtain ⟨-, same⟩ := Option.ite_none_left_eq_some.mp taken
    cases same
    exact inv.2
  · obtain ⟨-, same⟩ := Option.ite_none_right_eq_some.mp taken
    obtain ⟨⟨rc, after⟩, ends, rfl⟩ := Option.map_eq_some_iff.mp same
    have isPush : commandOf (bulks [ascii "LPUSH", ascii "l", List.replicate 512 97]) = some .lpush :=
      show findCommand (ascii "LPUSH") = _ by decide
    have ran := (serverHandleCommand_known 5 isPush).symm.trans ends
    rw [CommandName.fn] at ran
    exact inv.2.push inv.1 rfl rfl ran

/-- What the list reads. -/
theorem listItems_samplePushes (returned : sampleServer samplePushes = some server) :
    listItems server.lists server.log (ascii "l") = List.replicate 8 (List.replicate 512 97) := by
  have list : ((sampleServer samplePushes).map fun server =>
      (lookupIndex server.lists.keys (ascii "l"), (server.lists.lists 0).count)) =
        some (some (some 0), 8) := by decide +kernel
  rw [returned] at list
  obtain ⟨index, count⟩ := Prod.mk.inj (Option.some.inj list)
  obtain ⟨written, ok, values⟩ := allValues_samplePushes returned
  have length : (written 0).length = 8 := (ok.lists 0).count.symm.trans count
  have same : (written 0).map Prod.snd = List.replicate 8 (List.replicate 512 97) := by
    refine List.eq_replicate_iff.mpr ⟨by rw [List.length_map, length], fun val member => ?_⟩
    obtain ⟨record, isRecord, rfl⟩ := List.mem_map.mp member
    exact values 0 record isRecord
  have read := valuesOf_of_listOk (ok.capacity_eq ▸ ok.inside) (ok.lists 0)
  rw [same, List.take_of_length_le (by rw [List.length_replicate]; decide)] at read
  rw [listItems, index]
  exact read

/-- A list of 4096 bytes closes the connection that asks for it. -/
theorem long_list_closes : ∃ server, Reachable server ∧ idle server 5 = true ∧
    (∀ conn, connOf server 5 = some conn → WriteAnswer.fails ∉ conn.socket.answers) ∧
    Parsed (bulks [ascii "LRANGE", ascii "l", ascii "0", ascii "-1"]) ∧
    ¬ StaysOpen server 5 (bulks [ascii "LRANGE", ascii "l", ascii "0", ascii "-1"]) := by
  have client : ((sampleServer samplePushes).map fun server =>
      (idle server 5, (connOf server 5).map fun conn => conn.socket.answers)) = some (true, some []) := by
    decide +kernel
  obtain ⟨server, returned, reach, seen⟩ := exists_sampleServer client
  obtain ⟨isIdle, answers⟩ := Prod.mk.inj seen
  refine ⟨server, reach, isIdle, sound_of_answers answers, parsed_bulks (by decide), fun stays => ?_⟩
  have isRange : commandOf (bulks [ascii "LRANGE", ascii "l", ascii "0", ascii "-1"]) = some .lrange := by
    decide
  have asked : requested server (elementsOf (bulks [ascii "LRANGE", ascii "l", ascii "0", ascii "-1"]))
      .lrange = some (slice (listItems server.lists server.log (ascii "l")) 0 (-1)) := rfl
  have length : (rangeText (List.replicate 8 (List.replicate 512 97))).length = 4164 := by
    decide +kernel
  have deliverable := stays.deliverable reach.inv (Or.inr rfl) isRange _ asked
  rw [slice_all, listItems_samplePushes returned, length] at deliverable
  exact absurd deliverable (by decide)

/-- A list with one short element. -/
theorem range_stays_open_iff_hello : ∃ server, ServerInv server ∧ idle server 5 = true ∧
    listItems server.lists server.log (ascii "l") = [ascii "hello"] ∧ StaysOpen server 5 sampleRange := by
  obtain ⟨server, reach, isIdle, answers, stored⟩ := exists_listServer
  refine ⟨server, reach.inv, isIdle, stored, (range_stays_open_iff reach.inv 5 (Or.inr rfl) (by decide)
    isIdle (sound_of_answers answers)).mpr fun items asked => ?_⟩
  have isList : requested server (elementsOf sampleRange) .lrange =
      some (slice (listItems server.lists server.log (ascii "l")) 0 (-1)) := rfl
  rw [isList, slice_all, stored] at asked
  cases asked
  decide

end Sample

end Zedis.Server

/-
**The server refines the abstract store.**

Each handler of a request gives one of the replies that the specification allows, to the connection that
asked and to no other, and the server then holds the store that goes with it (`answer_serves`), as long
as no `DEL` removes an entry that another one has passed and no order overflows a level
(`CarefulRequest`). A new server holds the empty store, if its table has at most `2 ^ 32` slots and its
log less than `2 ^ 32` bytes (`zedisCreate_refines`).
-/

import Zedis.Server.Requests

namespace Zedis.Server

open Zedis.Lib Zedis.Reply Zedis.HashTable Zedis.BTree Zedis.AppendLog Zedis.Registry Zedis.Resp
open Zedis.Connection Zedis.OrderBook

/-- **The condition on a step**: a `DEL` removes no entry that another one has passed, and the sum of an
order is at most `INT64_MAX`. -/
def CarefulRequest (server : ZedisServer) : Request → Prop
  | .del key => SafeDel server.kv key
  | .order side price qty =>
    ∀ level, zedisBookLevel server.book price = some level → quantity side level + qty < 2 ^ 63
  | _ => True

/-- The texts that are sent between two states, and to whom. -/
def textsSince (server after : ZedisServer) : List (Nat × Bytes) :=
  (callsSince server after).map fun call => (call.fd, call.data server.stack)

/-- One call. -/
theorem textsSince_queueWrite {server base : ZedisServer} (calls : base.calls = server.calls)
    (call : QueueCall) :
    textsSince server (queueWrite base call) = [(call.fd, call.data server.stack)] := by
  have since : callsSince server (queueWrite base call) = [call] := by
    rw [callsSince, ← calls]
    exact callsSince_queueWrite base call
  rw [textsSince, since, List.map_singleton]

/-! ### One request -/

/-- **A request is served**: its handler returns, it sends the connection that asked a reply that the
specification allows, and nothing else, and the server then holds the store after the request. -/
def Served (limits : Limits) (server : ZedisServer) (store : Store) (fd : Nat) (request : Request)
    (result : Option (Int × ZedisServer)) : Prop :=
  ∃ after reply next, result = some (0, after) ∧
    textsSince server after = reply.toList.map (fun text => (fd, text)) ∧
    Allows limits store request reply next ∧ Refines limits after next

section Serves

variable {limits : Limits} {server base : ZedisServer} {store next : Store} {fd : Nat}
  {request : Request}

/-- A reply of one call. -/
theorem Served.of_call {call : QueueCall} {text : Bytes} (calls : base.calls = server.calls)
    (own : call.fd = fd) (data : call.data server.stack = text)
    (allowed : Allows limits store request (some text) next) (holds : Refines limits base next) :
    Served limits server store fd request (some (0, queueWrite base call)) := by
  refine ⟨queueWrite base call, some text, next, rfl, ?_, allowed,
    ⟨holds.strings, holds.sets, holds.scores, holds.lists, holds.book⟩⟩
  rw [textsSince_queueWrite calls, own, data]
  rfl

/-- A reply of one value. -/
theorem Served.of_value {size : Nat} {value : RespValue Bytes} (calls : base.calls = server.calls)
    (allowed : Allows limits store request (some (encode value)) next) (holds : Refines limits base next) :
    Served limits server store fd request (some (0, queueWrite base (encodedCall fd size value))) :=
  .of_call calls rfl (encodedCall_data fd size value server.stack) allowed holds

theorem Served.of_error {msg : Bytes} (line : Line msg) (calls : base.calls = server.calls)
    (allowed : Allows limits store request (some (errorText msg)) next)
    (holds : Refines limits base next) :
    Served limits server store fd request (some (replyError base fd msg)) := by
  rw [replyError_eq line]
  exact .of_value calls allowed holds

theorem Served.of_integer {v : Int} (range : IsInt64 v) (calls : base.calls = server.calls)
    (allowed : Allows limits store request (some (encode (.integer v))) next)
    (holds : Refines limits base next) :
    Served limits server store fd request (some (replyInteger base fd v)) := by
  rw [replyInteger_eq, wrap64_of_range range.1 range.2]
  exact .of_value calls allowed holds

end Serves

/-- The header of at most 4096 members fits, so something of a range is printed. -/
theorem fittingText_zsetItems {reg : ZedisZsetRegistry} {index : Bytes → Option Nat}
    (inv : ZsetInv reg index) (key : Bytes) (start stop : Int) :
    ∃ text, fittingText (slice (zsetItems reg key) start stop) 8192 = some text := by
  have few := length_slice_le (zsetItems reg key) start stop
  have bounded := length_zsetItems inv key
  unfold zedisBtreeMaxEntries at bounded
  have digits := (decimal_spec (slice (zsetItems reg key) start stop).length).short 3 (by omega)
  rw [fittingText, formatted, if_neg]
  · exact ⟨_, rfl⟩
  · simp only [arrayHeader, List.cons_append, List.length_cons, List.length_append,
      show crlf.length = 2 from rfl]
    omega

section Requests

variable {limits : Limits} {server : ZedisServer} {store : Store} (holds : Refines limits server store)
  (fd : Nat)

include holds

theorem answer_set (key value : Bytes) :
    Served limits server store fd (.set key value) (answer server fd (.set key value)) := by
  rcases holds.strings.set key value with ⟨refused, ends⟩ | ⟨short, room, kv, ends, kept⟩
  · simp only [answer, ends, Option.map_some]
    rw [if_pos (by decide)]
    exact .of_error (line_ofList (by decide)) rfl (.setRefused key value refused)
      ⟨holds.strings, holds.sets, holds.scores, holds.lists, holds.book⟩
  · simp only [answer, ends, Option.map_some]
    rw [if_neg (not_not.mpr rfl), replySimple_eq (line_ofList (by decide))]
    exact .of_value rfl (.set key value short room)
      ⟨kept, holds.sets, holds.scores, holds.lists, holds.book⟩

theorem answer_get (key : Bytes) :
    Served limits server store fd (.get key) (answer server fd (.get key)) := by
  rw [answer, zedisHtGet_represents holds.strings.ordered holds.strings.represents, Option.map_some]
  cases stored : store.strings key with
  | none =>
    rw [Option.map_none, Option.elim_none, replyNull_eq]
    exact .of_value rfl (.getMissing key stored) holds
  | some value =>
    rw [Option.map_some, Option.elim_some, replyBulk_eq, length_readBuffer]
    by_cases short : (copyOut value zedisHtMaxValue).valueLen ≤ 4086
    · -- a value that fits the reply was copied whole
      have few : value.length < zedisHtMaxValue := short.trans_lt (by decide)
      rw [readBuffer_copyOut server.stack few, if_pos short]
      exact .of_value rfl (.get key value stored short) holds
    · rw [if_neg short]
      refine ⟨server, none, store, rfl, ?_, .getLong key value stored (Nat.not_le.mp short), holds⟩
      rw [textsSince, callsSince, List.drop_length]
      rfl

theorem answer_del {key : Bytes} (safe : SafeDel server.kv key) :
    Served limits server store fd (.del key) (answer server fd (.del key)) := by
  obtain ⟨kv, ends, kept⟩ := holds.strings.del safe
  have reply : (if (if (store.strings key).isSome = true then (0 : Int) else -1) = 0 then (1 : Int) else 0)
      = if (store.strings key).isSome = true then 1 else 0 := by
    by_cases stored : (store.strings key).isSome = true
    · rw [if_pos stored, if_pos stored, if_pos rfl]
    · rw [if_neg stored, if_neg stored, if_neg (by decide)]
  simp only [answer, ends, Option.map_some, reply]
  refine .of_integer ?_ rfl (.del key) ⟨kept, holds.sets, holds.scores, holds.lists, holds.book⟩
  split
  · exact ⟨by decide, by decide⟩
  · exact ⟨by decide, by decide⟩

theorem answer_zadd (key : Bytes) {score : Int} (range : IsInt64 score) (member : Bytes) :
    Served limits server store fd (.zadd key score member)
      (answer server fd (.zadd key score member)) := by
  obtain ⟨rc, zsets, ends, outcome⟩ := holds.sets.add key score member
  obtain ⟨index, -, scores⟩ := holds.sets
  simp only [answer, scores key member, ends, Option.bind_some, Option.map_some]
  rcases outcome with ⟨rfl, missing, kept⟩ | ⟨rfl, kept⟩
  · rw [if_pos (by decide)]
    exact .of_error (line_ofList (by decide)) rfl (.zaddRefused key score member missing)
      ⟨holds.strings, kept, holds.scores, holds.lists, holds.book⟩
  · rw [if_neg (not_not.mpr rfl)]
    refine .of_integer ?_ rfl (.zadd key score member)
      ⟨holds.strings, kept, fun other member' score' stored => ?_, holds.lists, holds.book⟩
    · split
      · exact ⟨by decide, by decide⟩
      · exact ⟨by decide, by decide⟩
    · -- the new score is in the range, and so are the others
      change Function.update store.sets key _ other member' = some score' at stored
      by_cases isKey : other = key
      · rw [isKey, Function.update_self] at stored
        by_cases isMember : member' = member
        · rw [isMember, Function.update_self, Option.some.injEq] at stored
          exact stored ▸ range
        · rw [Function.update_of_ne isMember] at stored
          exact holds.scores key member' score' stored
      · rw [Function.update_of_ne isKey] at stored
        exact holds.scores other member' score' stored

theorem answer_zscore (key member : Bytes) :
    Served limits server store fd (.zscore key member) (answer server fd (.zscore key member)) := by
  obtain ⟨index, -, scores⟩ := holds.sets
  simp only [answer, scores key member, Option.map_some]
  cases stored : store.sets key member with
  | none =>
    rw [Option.elim_none, replyNull_eq]
    exact .of_value rfl (.zscoreMissing key member stored) holds
  | some score =>
    obtain ⟨low, high⟩ := holds.scores key member score stored
    rw [Option.elim_some, wrap64_of_range low high]
    have double := natAbs_toDouble (n := score) (by omega)
    obtain ⟨positive, short⟩ := length_printG17 (n := toDouble score) (by omega)
    have printed : readBuffer server.stack (snprintf 64 (printG17 (toDouble score)))
        (printG17 (toDouble score)).length = printG17 (toDouble score) := by
      rw [snprintf_of_fits (by omega)]
      exact readBuffer_of_front (List.prefix_append _ _) server.stack
    rw [if_pos positive, printed, replyBulk_eq, if_pos (by omega)]
    exact .of_value rfl (.zscore key member score stored) holds

theorem answer_zrange (inv : ServerInv server) (key : Bytes) (start stop : Int) :
    Served limits server store fd (.zrange key start stop)
      (answer server fd (.zrange key start stop)) := by
  obtain ⟨⟨zindex, zinv⟩, -⟩ := inv.registries
  obtain ⟨text, printed⟩ := fittingText_zsetItems zinv key start stop
  rw [answer, zedisZsetRegRange_eq zinv, printed, Option.map_some, sendRange]
  exact .of_call rfl rfl (data_of_front List.prefix_rfl rfl server.stack)
    (.zrange key start stop _ text (holds.sets.items key) printed) holds

theorem answer_lpush (key value : Bytes) :
    Served limits server store fd (.lpush key value) (answer server fd (.lpush key value)) := by
  obtain ⟨rc, lists, log, ends, outcome⟩ := holds.lists.push key value
  simp only [answer, ends, Option.bind_some]
  rcases outcome with ⟨rfl, kept⟩ | ⟨rfl, kept⟩
  · rw [if_pos (by decide)]
    exact .of_error (line_ofList (by decide)) rfl (.lpushRefused key value)
      ⟨holds.strings, holds.sets, holds.scores, kept, holds.book⟩
  · obtain ⟨measured, -, few⟩ := kept.reads key
    rw [Function.update_self, List.length_cons] at measured few
    rw [if_neg (not_not.mpr rfl), measured, Option.map_some]
    have allowed := @Allows.lpush limits store key value
    rw [← Nat.cast_add_one] at allowed
    exact .of_integer ⟨by omega, by omega⟩ rfl allowed
      ⟨holds.strings, holds.sets, holds.scores, kept, holds.book⟩

theorem answer_llen (key : Bytes) :
    Served limits server store fd (.llen key) (answer server fd (.llen key)) := by
  obtain ⟨measured, -, few⟩ := holds.lists.reads key
  rw [answer, measured, Option.map_some]
  exact .of_integer ⟨by omega, by omega⟩ rfl (.llen key) holds

theorem answer_lrange (inv : ServerInv server) (key : Bytes) (start stop : Int) :
    Served limits server store fd (.lrange key start stop)
      (answer server fd (.lrange key start stop)) := by
  obtain ⟨-, items, -⟩ := holds.lists.reads key
  obtain ⟨-, ⟨lindex, lok⟩⟩ := inv.registries
  have allowed := @Allows.lrange limits store key start stop
  rw [answer, zedisListRegLrange_eq lok, items, Option.map_some]
  rw [lrangeReply] at allowed
  by_cases long : (rangeText (slice ((store.lists key).take 1024) start stop)).length ≥ 8192
  · rw [formatted, if_pos long]
    rw [if_neg (Nat.not_lt.mpr long)] at allowed
    exact .of_error (line_ofList (by decide)) rfl allowed holds
  · rw [formatted, if_neg long]
    rw [if_pos (Nat.not_le.mp long)] at allowed
    exact .of_call rfl rfl (data_of_front List.prefix_rfl rfl server.stack) allowed holds

theorem answer_order {side : Side} {price qty : Int} (range : IsInt64 qty)
    (fits : CarefulRequest server (.order side price qty)) :
    Served limits server store fd (.order side price qty)
      (answer server fd (.order side price qty)) := by
  have outcome := holds.book.place (show NoOverflow server.book ⟨side, price, qty, range.1, range.2⟩
    from fits)
  rcases outcome with ⟨none, refused⟩ | ⟨has, book, placed, kept⟩
  · rw [answer, refused, Option.elim_none]
    exact .of_error line_priceOutOfRange rfl (.orderRefused side price qty none) holds
  · rw [answer, placed, Option.elim_some]
    exact .of_integer range rfl (.order side price qty has)
      ⟨holds.strings, holds.sets, holds.scores, holds.lists, kept⟩

theorem answer_level (price : Int) :
    Served limits server store fd (.level price) (answer server fd (.level price)) := by
  rcases holds.book.level price with ⟨none, missing⟩ | ⟨has, level, found, isBid, isAsk⟩
  · rw [answer, missing, Option.elim_none]
    exact .of_error line_priceOutOfRange rfl (.levelRefused price none) holds
  · rw [answer, found, Option.elim_some, sendPrinted_bookText, isBid, isAsk]
    exact .of_value rfl (.level price has) holds

end Requests

/-! ### Runs -/

/-- **The specification of the server**: a request may get a reply that the store allows, and nobody
else gets anything. -/
def Serves (limits : Limits) (store : Store) (asked : Nat × Request) (answered : List (Nat × Bytes))
    (next : Store) : Prop :=
  ∃ reply, Allows limits store asked.2 reply next ∧
    answered = reply.toList.map fun text => (asked.1, text)

section Runs

variable {limits : Limits} {server next : ZedisServer} {store : Store}

/-- A number that is read is a 64-bit integer. -/
theorem isInt64_of_parseI64 {text : Bytes} {n : Int} (read : parseI64 text = some n) : IsInt64 n := by
  rw [parseI64_eq, readInt_eq_some_iff] at read
  obtain ⟨m, -, rfl⟩ := read
  exact wrap64_range m

/-- The scores and the quantities of a request are 64-bit integers. -/
def InRange64 : Request → Prop
  | .zadd _ score _ => IsInt64 score
  | .order _ _ qty => IsInt64 qty
  | _ => True

theorem inRange64_of_requestOf {cmd : RespValue Bytes} {request : Request}
    (made : requestOf cmd = some request) : InRange64 request := by
  obtain ⟨command, -, made⟩ := Option.bind_eq_some_iff.mp made
  cases command with
  | zadd =>
    obtain ⟨key, -, made⟩ := Option.bind_eq_some_iff.mp made
    obtain ⟨score, read, made⟩ := Option.bind_eq_some_iff.mp made
    obtain ⟨scoreStr, -, isScore⟩ := Option.bind_eq_some_iff.mp read
    obtain ⟨member, -, rfl⟩ := Option.map_eq_some_iff.mp made
    exact isInt64_of_parseI64 isScore
  | bid =>
    obtain ⟨_, _, _, _, -, -, -, isQty, rfl⟩ := read_of_order made
    exact isInt64_of_parseI64 isQty
  | ask =>
    obtain ⟨_, _, _, _, -, -, -, isQty, rfl⟩ := read_of_order made
    exact isInt64_of_parseI64 isQty
  | set | zscore | lpush =>
    obtain ⟨key, -, made⟩ := Option.bind_eq_some_iff.mp made
    obtain ⟨argument, -, rfl⟩ := Option.map_eq_some_iff.mp made
    trivial
  | get | del | llen | zrange | lrange | book =>
    obtain ⟨arguments, -, rfl⟩ := Option.map_eq_some_iff.mp made
    trivial
  | _ => cases made

/-- **Every careful request is served.** -/
theorem answer_serves (holds : Refines limits server store) (inv : ServerInv server) (fd : Nat)
    {request : Request} (range : InRange64 request) (careful : CarefulRequest server request) :
    Served limits server store fd request (answer server fd request) := by
  cases request with
  | set key value => exact answer_set holds fd key value
  | get key => exact answer_get holds fd key
  | del key => exact answer_del holds fd careful
  | zadd key score member => exact answer_zadd holds fd key range member
  | zscore key member => exact answer_zscore holds fd key member
  | zrange key start stop => exact answer_zrange holds fd inv key start stop
  | lpush key value => exact answer_lpush holds fd key value
  | llen key => exact answer_llen holds fd key
  | lrange key start stop => exact answer_lrange holds fd inv key start stop
  | order side price qty => exact answer_order holds fd range careful
  | level price => exact answer_level holds fd price

/-- The same stores hold the same store. -/
theorem Refines.of_same (holds : Refines limits server store) (same : StoresStay server next) :
    Refines limits next store := by
  have zsets : next.zsets = server.zsets := congrArg Registries.zsets same.registries
  have lists : next.lists = server.lists := congrArg Registries.lists same.registries
  have log : next.log = server.log := congrArg Registries.log same.registries
  refine ⟨?_, ?_, holds.scores, ?_, ?_⟩
  · rw [same.kv]
    exact holds.strings
  · rw [zsets]
    exact holds.sets
  · rw [lists, log]
    exact holds.lists
  · rw [same.book]
    exact holds.book

/-- A new server holds the empty store. -/
theorem zedisCreate_refines {config : ZedisConfig} {mapped : Option (Nat → UInt8)}
    {stack : Nat → UInt8} (made : zedisCreate config mapped stack = some server)
    (keys : config.maxKeys ≤ 2 ^ 32) (size : config.aolSize < 2 ^ 32)
    (low : -2 ^ 31 ≤ config.bookPriceMin) (high : config.bookPriceMax < 2 ^ 31) :
    Refines config.limits server Store.empty := by
  obtain ⟨arena₀, -, made⟩ := Option.bind_eq_some_iff.mp made
  obtain ⟨⟨slab, arena₁⟩, -, made⟩ := Option.bind_eq_some_iff.mp made
  obtain ⟨⟨kv, arena₂⟩, kvMade, made⟩ := Option.bind_eq_some_iff.mp made
  obtain ⟨⟨book, arena₃⟩, bookMade, made⟩ := Option.bind_eq_some_iff.mp made
  obtain ⟨⟨ring, arena₄⟩, -, made⟩ := Option.bind_eq_some_iff.mp made
  obtain ⟨log, logMade, made⟩ := Option.bind_eq_some_iff.mp made
  obtain ⟨⟨zsets, arena₅⟩, zsetsMade, made⟩ := Option.bind_eq_some_iff.mp made
  obtain ⟨⟨lists, arena₆⟩, listsMade, rfl⟩ := Option.map_eq_some_iff.mp made
  obtain ⟨positive, isKv⟩ := zedisHtInit_eq kvMade
  refine ⟨?_, .start zsetsMade, ?_, .start listsMade logMade size, .start low high bookMade⟩
  · change StringsRefine config.limits kv _
    rw [isKv]
    exact .start positive keys
  · intro key member score stored
    cases stored

end Runs

end Zedis.Server

/-
**Requests.**

A command whose arguments are read is a request to the stores (`requestOf`), and its handler answers it
(`serverHandleCommand_eq_answer`). Every other command, an unknown one, one whose arguments are not read,
a `PING`, an `ECHO`, a `PUBLISH`, a `SUBSCRIBE` or a `QUIT`, leaves the stores alone
(`serverHandleCommand_keeps`), and so does every event that is not a command (`serverStep_keeps`).
-/

import Zedis.Server.Store

namespace Zedis.Server

open Zedis.Lib Zedis.Reply Zedis.HashTable Zedis.BTree Zedis.AppendLog Zedis.Registry Zedis.Resp
open Zedis.Connection Zedis.OrderBook

/-! ### Requests -/

/-- The request that a command makes, if its arguments are read. -/
def CommandName.request (command : CommandName) (elements : List (RespValue Bytes)) : Option Request :=
  match command with
  | .set => (cmdBulk elements 1).bind fun key => (cmdBulk elements 2).map fun value => .set key value
  | .get => (cmdBulk elements 1).map .get
  | .del => (cmdBulk elements 1).map .del
  | .zadd => (cmdBulk elements 1).bind fun key => ((cmdBulk elements 2).bind parseI64).bind fun score =>
      (cmdBulk elements 3).map fun member => .zadd key score member
  | .zscore => (cmdBulk elements 1).bind fun key => (cmdBulk elements 2).map fun member =>
      .zscore key member
  | .zrange => (rangeArgs elements).map fun args => .zrange args.1 args.2.1 args.2.2
  | .lpush => (cmdBulk elements 1).bind fun key => (cmdBulk elements 2).map fun value =>
      .lpush key value
  | .llen => (cmdBulk elements 1).map .llen
  | .lrange => (rangeArgs elements).map fun args => .lrange args.1 args.2.1 args.2.2
  | .bid => ((cmdBulk elements 1).bind parseInt).bind fun price =>
      ((cmdBulk elements 2).bind parseI64).map fun qty => .order .bid price qty
  | .ask => ((cmdBulk elements 1).bind parseInt).bind fun price =>
      ((cmdBulk elements 2).bind parseI64).map fun qty => .order .ask price qty
  | .book => ((cmdBulk elements 1).bind parseInt).map .level
  | .ping | .echo | .publish | .subscribe | .quit => none

/-- The request that a value makes. -/
def requestOf (cmd : RespValue Bytes) : Option Request :=
  (commandOf cmd).bind fun command => command.request (elementsOf cmd)

/-! ### What leaves the stores alone -/

/-- The stores are the same, and so is the memory below the handlers. -/
structure StoresStay (server after : ZedisServer) : Prop where
  kv : after.kv = server.kv
  registries : after.toRegistries = server.toRegistries
  book : after.book = server.book
  stack : after.stack = server.stack

/-- What a handler returns has the same stores. -/
def KeepsStores (server : ZedisServer) (result : Option (Int × ZedisServer)) : Prop :=
  ∀ rc after, result = some (rc, after) → StoresStay server after

section Keeps

variable {server : ZedisServer} {fd : Nat}

theorem StoresStay.refl (server : ZedisServer) : StoresStay server server := ⟨rfl, rfl, rfl, rfl⟩

theorem keepsStores_of {after : ZedisServer} {rc : Int} (same : StoresStay server after) :
    KeepsStores server (some (rc, after)) := by
  intro rc' after' returned
  cases returned
  exact same

theorem sendFormatted_keeps (server : ZedisServer) (fd size : Nat) (reply : Formatted) :
    KeepsStores server (some (sendFormatted server fd size reply)) := by
  unfold sendFormatted
  split
  · split
    · exact keepsStores_of ⟨rfl, rfl, rfl, rfl⟩
    · exact keepsStores_of (.refl server)
  · exact keepsStores_of (.refl server)

theorem sendPrinted_keeps (server : ZedisServer) (fd size : Nat) (text : Bytes) :
    KeepsStores server (some (sendPrinted server fd size text)) := by
  unfold sendPrinted
  split
  · exact keepsStores_of ⟨rfl, rfl, rfl, rfl⟩
  · exact keepsStores_of (.refl server)

/-- Calls of `conn_queue_write` keep the stores. -/
theorem foldl_queueWrite_same (calls : List QueueCall) : ∀ base : ZedisServer,
    StoresStay server base → StoresStay server (calls.foldl queueWrite base) := by
  induction calls with
  | nil => exact fun base same => same
  | cons call calls ih => exact fun base same => ih _ ⟨same.kv, same.registries, same.book, same.stack⟩

theorem publishCommand_keeps (server : ZedisServer) (fd : Nat) (elements : List (RespValue Bytes)) :
    KeepsStores server (publishCommand server fd elements) := by
  cases first : cmdBulk elements 1 with
  | none =>
    rw [publishCommand, first]
    exact sendFormatted_keeps server fd 512 _
  | some channel =>
    cases second : cmdBulk elements 2 with
    | none =>
      rw [publishCommand, first, second]
      exact sendFormatted_keeps server fd 512 _
    | some message =>
      cases taken : RingBuffer.zedisRingPublish server.ring (channelName channel) message with
      | none =>
        simp only [publishCommand, first, second, taken]
        exact sendFormatted_keeps server fd 512 _
      | some ring =>
        rw [publishCommand_runs server fd first second taken]
        exact keepsStores_of (foldl_queueWrite_same _ _ ⟨rfl, rfl, rfl, rfl⟩)

theorem subscribeCommand_keeps (server : ZedisServer) (fd : Nat) (elements : List (RespValue Bytes)) :
    KeepsStores server (subscribeCommand server fd elements) := by
  unfold subscribeCommand
  split
  · intro rc after returned
    have same := sendPrinted_keeps _ fd 512 _ rc after returned
    exact ⟨same.kv, same.registries, same.book, same.stack⟩
  · exact sendFormatted_keeps server fd 512 _

/-- An order that makes no request has an argument that is not read. -/
theorem unread_of_order {price qty : Option Int} {request : Int → Int → Request}
    (unasked : (price.bind fun p => qty.map fun q => request p q) = none) :
    price = none ∨ qty = none := by
  cases price with
  | none => exact Or.inl rfl
  | some p => exact Or.inr (Option.map_eq_none_iff.mp unasked)

theorem orderCommand_keeps {elements : List (RespValue Bytes)} {wrongNumber invalid : Bytes}
    {place : ZedisOrderBook → Int → Int → Option ZedisOrderBook}
    (unread : (cmdBulk elements 1).bind parseInt = none ∨ (cmdBulk elements 2).bind parseI64 = none) :
    KeepsStores server (orderCommand wrongNumber invalid place server fd elements) := by
  unfold orderCommand
  split
  · rename_i first second
    rw [first, second, Option.bind_some, Option.bind_some] at unread
    split
    · rename_i isPrice isQty
      rw [isPrice, isQty] at unread
      rcases unread with unread | unread <;> cases unread
    · exact sendFormatted_keeps server fd 512 _
  · exact sendFormatted_keeps server fd 512 _

theorem rangeCommand_keeps {elements : List (RespValue Bytes)} {wrongNumber failed : Bytes}
    {range : ZedisServer → Bytes → Int → Int → Nat → Option (Option Bytes)}
    (unread : rangeArgs elements = none) :
    KeepsStores server (rangeCommand wrongNumber failed range server fd elements) := by
  unfold rangeCommand
  split
  · rename_i first second third
    split
    · rename_i isStart isStop
      simp only [rangeArgs, first, second, third, isStart, isStop] at unread
      cases unread
    · exact sendFormatted_keeps server fd 512 _
  · exact sendFormatted_keeps server fd 512 _

/-- **A handler whose arguments are not read, or that makes no request, keeps the stores.** -/
theorem CommandName.keeps {command : CommandName} {elements : List (RespValue Bytes)}
    (unasked : command.request elements = none) : KeepsStores server (command.fn server fd elements) := by
  cases command with
  | ping =>
    simp only [CommandName.fn, pingCommand]
    split
    · exact sendFormatted_keeps server fd 512 _
    · split
      · exact sendFormatted_keeps server fd 4096 _
      · exact keepsStores_of (.refl server)
  | echo =>
    simp only [CommandName.fn, echoCommand]
    split
    · exact sendFormatted_keeps server fd 4096 _
    · exact sendFormatted_keeps server fd 512 _
  | publish => exact publishCommand_keeps server fd elements
  | subscribe => exact subscribeCommand_keeps server fd elements
  | quit => exact keepsStores_of ⟨rfl, rfl, rfl, rfl⟩
  | set =>
    simp only [CommandName.fn, setCommand]
    split
    · rename_i first second
      simp [CommandName.request, first, second] at unasked
    · exact sendFormatted_keeps server fd 512 _
  | get =>
    simp only [CommandName.fn, getCommand]
    split
    · rename_i first
      simp [CommandName.request, first] at unasked
    · exact sendFormatted_keeps server fd 512 _
  | del =>
    simp only [CommandName.fn, delCommand]
    split
    · rename_i first
      simp [CommandName.request, first] at unasked
    · exact sendFormatted_keeps server fd 512 _
  | zadd =>
    simp only [CommandName.fn, zaddCommand]
    split
    · rename_i first second third
      split
      · exact sendFormatted_keeps server fd 512 _
      · rename_i isScore
        simp [CommandName.request, first, second, third, isScore] at unasked
    · exact sendFormatted_keeps server fd 512 _
  | zscore =>
    simp only [CommandName.fn, zscoreCommand]
    split
    · rename_i first second
      simp [CommandName.request, first, second] at unasked
    · exact sendFormatted_keeps server fd 512 _
  | lpush =>
    simp only [CommandName.fn, lpushCommand]
    split
    · rename_i first second
      simp [CommandName.request, first, second] at unasked
    · exact sendFormatted_keeps server fd 512 _
  | llen =>
    simp only [CommandName.fn, llenCommand]
    split
    · rename_i first
      simp [CommandName.request, first] at unasked
    · exact sendFormatted_keeps server fd 512 _
  | book =>
    simp only [CommandName.fn, bookCommand]
    split
    · rename_i first
      split
      · rename_i isPrice
        simp [CommandName.request, first, isPrice] at unasked
      · exact sendFormatted_keeps server fd 512 _
    · exact sendFormatted_keeps server fd 512 _
  | zrange =>
    rw [CommandName.fn, zrangeCommand]
    exact rangeCommand_keeps (Option.map_eq_none_iff.mp unasked)
  | lrange =>
    rw [CommandName.fn, lrangeCommand]
    exact rangeCommand_keeps (Option.map_eq_none_iff.mp unasked)
  | bid => exact orderCommand_keeps (unread_of_order unasked)
  | ask => exact orderCommand_keeps (unread_of_order unasked)

/-- A command of the table runs its handler on its elements. -/
theorem serverHandleCommand_fn {cmd : RespValue Bytes} {command : CommandName}
    (known : commandOf cmd = some command) :
    serverHandleCommand server fd cmd = command.fn server fd (elementsOf cmd) := by
  cases cmd with
  | array elements => exact serverHandleCommand_known fd known
  | _ => cases known

/-- **A command that makes no request keeps the stores.** -/
theorem serverHandleCommand_keeps {cmd : RespValue Bytes} (unasked : requestOf cmd = none) :
    KeepsStores server (serverHandleCommand server fd cmd) := by
  cases known : commandOf cmd with
  | some command =>
    rw [requestOf, known, Option.bind_some] at unasked
    rw [serverHandleCommand_fn known]
    exact CommandName.keeps unasked
  | none =>
    unfold serverHandleCommand
    split
    · exact keepsStores_of (.refl server)
    · split
      · exact sendFormatted_keeps server fd 512 _
      · rename_i named
        split
        · exact sendPrinted_keeps server fd 512 _
        · rename_i found
          rw [commandOf, named, Option.bind_some, found] at known
          cases known
    · exact sendFormatted_keeps server fd 512 _

end Keeps

/-- **An event that makes no request keeps the stores.** -/
theorem serverStep_keeps {server next : ZedisServer} {event : ServerEvent}
    (unasked : ∀ fd cmd, event = .command fd cmd → requestOf cmd = none)
    (taken : serverStep server event = some next) : StoresStay server next := by
  cases event with
  | accept fd parser writeBuf answers =>
    rw [serverStep] at taken
    split at taken
    · cases taken
    · cases taken
      exact ⟨rfl, rfl, rfl, rfl⟩
  | command fd cmd =>
    rw [serverStep] at taken
    split at taken
    · obtain ⟨⟨rc, after⟩, ends, rfl⟩ := Option.map_eq_some_iff.mp taken
      exact serverHandleCommand_keeps (unasked fd cmd rfl) rc after ends
    · cases taken
  | writable fd =>
    rw [serverStep] at taken
    split at taken
    · cases taken
    · cases taken
      split
      · exact ⟨rfl, rfl, rfl, rfl⟩
      · exact ⟨rfl, rfl, rfl, rfl⟩
  | destroy fd =>
    rw [serverStep] at taken
    split at taken
    · cases taken
      exact ⟨rfl, rfl, rfl, rfl⟩
    · cases taken

/-! ### The handler of a request -/

/-- What the handler of a command does once its arguments are read. -/
def answer (server : ZedisServer) (fd : Nat) : Request → Option (Int × ZedisServer)
  | .set key val => (zedisHtSet server.kv key val).map fun (rc, kv) =>
      if rc ≠ 0 then replyError { server with kv := kv } fd (ascii "ERR hash table full or value too large")
      else replySimple { server with kv := kv } fd (ascii "OK")
  | .get key => (zedisHtGet server.kv key zedisHtMaxValue).map fun found =>
      found.elim (replyNull server fd) fun hit =>
        replyBulk server fd (readBuffer server.stack hit.valueOut hit.valueLen)
  | .del key => (zedisHtDel server.kv key).map fun (rc, kv) =>
      replyInteger { server with kv := kv } fd (if rc = 0 then 1 else 0)
  | .zadd key score member => (zedisZsetRegScore server.zsets key member).bind fun prev =>
      (zedisZsetRegAdd server.zsets key score member).map fun (rc, zsets) =>
        if rc ≠ 0 then
          replyError { server with zsets := zsets } fd (ascii "ERR zset full or member too large")
        else replyInteger { server with zsets := zsets } fd (if prev.isSome then 0 else 1)
  | .zscore key member => (zedisZsetRegScore server.zsets key member).map fun found =>
      found.elim (replyNull server fd) fun score =>
        if (printG17 (toDouble (wrap64 score))).length > 0 then
          replyBulk server fd (readBuffer server.stack
            (snprintf 64 (printG17 (toDouble (wrap64 score)))) (printG17 (toDouble (wrap64 score))).length)
        else (0, server)
  | .zrange key start stop => (zedisZsetRegRange server.zsets key start stop 8192).map
      (sendRange server fd (ascii "ERR zrange failed"))
  | .lpush key val => (zedisListRegLpush server.lists server.log key val).bind fun (rc, lists, log) =>
      if rc ≠ 0 then
        some (replyError { server with lists := lists, log := log } fd
          (ascii "ERR list full or append log full"))
      else (zedisListRegLlen lists key).map fun (len : Nat) =>
        replyInteger { server with lists := lists, log := log } fd len
  | .llen key => (zedisListRegLlen server.lists key).map fun (len : Nat) => replyInteger server fd len
  | .lrange key start stop => (zedisListRegLrange server.lists server.log key start stop 8192).map
      (sendRange server fd (ascii "ERR lrange failed"))
  | .order side price qty => some ((place server.book side price qty).elim
      (replyError server fd (ascii "ERR price out of range"))
      fun book => replyInteger { server with book := book } fd qty)
  | .level price => some ((zedisBookLevel server.book price).elim
      (replyError server fd (ascii "ERR price out of range"))
      fun level => sendPrinted server fd 128 (bookText (wrap64 level.bidQty) (wrap64 level.askQty)))

section Answer

variable {server : ZedisServer} {fd : Nat} {elements : List (RespValue Bytes)} {request : Request}

/-- The arguments of an order that was read. -/
theorem read_of_order {side : Side}
    (made : (((cmdBulk elements 1).bind parseInt).bind fun price =>
      ((cmdBulk elements 2).bind parseI64).map fun qty => Request.order side price qty) = some request) :
    ∃ priceStr qtyStr price qty, cmdBulk elements 1 = some priceStr ∧ cmdBulk elements 2 = some qtyStr ∧
      parseInt priceStr = some price ∧ parseI64 qtyStr = some qty ∧ request = .order side price qty := by
  obtain ⟨price, first, made⟩ := Option.bind_eq_some_iff.mp made
  obtain ⟨priceStr, first, isPrice⟩ := Option.bind_eq_some_iff.mp first
  obtain ⟨qty, second, rfl⟩ := Option.map_eq_some_iff.mp made
  obtain ⟨qtyStr, second, isQty⟩ := Option.bind_eq_some_iff.mp second
  exact ⟨priceStr, qtyStr, price, qty, first, second, isPrice, isQty, rfl⟩

/-- **A handler whose arguments are read answers the request.** -/
theorem CommandName.fn_eq_answer {command : CommandName}
    (made : command.request elements = some request) :
    command.fn server fd elements = answer server fd request := by
  cases command with
  | set =>
    obtain ⟨key, first, made⟩ := Option.bind_eq_some_iff.mp made
    obtain ⟨value, second, rfl⟩ := Option.map_eq_some_iff.mp made
    simp only [CommandName.fn, setCommand, first, second, answer]
  | get =>
    obtain ⟨key, first, rfl⟩ := Option.map_eq_some_iff.mp made
    simp only [CommandName.fn, getCommand, first, answer]
    refine congrArg (Option.map · _) (funext fun found => ?_)
    cases found with
    | none => rfl
    | some hit => rfl
  | del =>
    obtain ⟨key, first, rfl⟩ := Option.map_eq_some_iff.mp made
    simp only [CommandName.fn, delCommand, first, answer]
  | zadd =>
    obtain ⟨key, first, made⟩ := Option.bind_eq_some_iff.mp made
    obtain ⟨score, second, made⟩ := Option.bind_eq_some_iff.mp made
    obtain ⟨scoreStr, second, isScore⟩ := Option.bind_eq_some_iff.mp second
    obtain ⟨member, third, rfl⟩ := Option.map_eq_some_iff.mp made
    simp only [CommandName.fn, zaddCommand, first, second, third, isScore, answer]
  | zscore =>
    obtain ⟨key, first, made⟩ := Option.bind_eq_some_iff.mp made
    obtain ⟨member, second, rfl⟩ := Option.map_eq_some_iff.mp made
    simp only [CommandName.fn, zscoreCommand, first, second, answer]
    refine congrArg (Option.map · _) (funext fun found => ?_)
    cases found with
    | none => rfl
    | some score => rfl
  | zrange =>
    obtain ⟨⟨key, start, stop⟩, args, rfl⟩ := Option.map_eq_some_iff.mp made
    rw [CommandName.fn, zrangeCommand, rangeCommand_eq fd elements _ _ _ args, answer]
  | lpush =>
    obtain ⟨key, first, made⟩ := Option.bind_eq_some_iff.mp made
    obtain ⟨value, second, rfl⟩ := Option.map_eq_some_iff.mp made
    simp only [CommandName.fn, lpushCommand, first, second, answer]
  | llen =>
    obtain ⟨key, first, rfl⟩ := Option.map_eq_some_iff.mp made
    simp only [CommandName.fn, llenCommand, first, answer]
  | lrange =>
    obtain ⟨⟨key, start, stop⟩, args, rfl⟩ := Option.map_eq_some_iff.mp made
    rw [CommandName.fn, lrangeCommand, rangeCommand_eq fd elements _ _ _ args, answer]
  | bid =>
    obtain ⟨priceStr, qtyStr, price, qty, first, second, isPrice, isQty, rfl⟩ := read_of_order made
    simp only [CommandName.fn, bidCommand, orderCommand, first, second, isPrice, isQty, answer, place]
    cases zedisBookBid server.book price qty with
    | none => rfl
    | some book => rfl
  | ask =>
    obtain ⟨priceStr, qtyStr, price, qty, first, second, isPrice, isQty, rfl⟩ := read_of_order made
    simp only [CommandName.fn, askCommand, orderCommand, first, second, isPrice, isQty, answer, place]
    cases zedisBookAsk server.book price qty with
    | none => rfl
    | some book => rfl
  | book =>
    obtain ⟨price, first, rfl⟩ := Option.map_eq_some_iff.mp made
    obtain ⟨priceStr, first, isPrice⟩ := Option.bind_eq_some_iff.mp first
    simp only [CommandName.fn, bookCommand, first, isPrice, answer]
    cases zedisBookLevel server.book price with
    | none => rfl
    | some level => rfl
  | _ => cases made

theorem serverHandleCommand_eq_answer {cmd : RespValue Bytes} (made : requestOf cmd = some request) :
    serverHandleCommand server fd cmd = answer server fd request := by
  obtain ⟨command, known, made⟩ := Option.bind_eq_some_iff.mp made
  rw [serverHandleCommand_fn known, CommandName.fn_eq_answer made]

end Answer

end Zedis.Server

/-
**What the handlers do.**

`Handles server fd elements command`: the handler of the command returns, it keeps the invariant, it
makes the pushes of a `PUBLISH` and then the calls of its own reply, and these are one of a few
(`Reply`): one value, nothing at all (`Unanswered`), the text that `SUBSCRIBE` prints, or the text of a
range. Each handler is shown to do so from what its store does (`CommandName.handles`).
-/

import Zedis.Server.Calls

namespace Zedis.Server

open Zedis.Lib Zedis.HashTable Zedis.BTree Zedis.AppendLog Zedis.Registry Zedis.Reply Zedis.Resp
open Zedis.Connection Zedis.OrderBook Zedis.RingBuffer

/-! ### The cases of a reply -/

/-- The handler sends nothing: the argument of `PING` is not a bulk string, or a bulk string to send is
longer than 4086 bytes. -/
def Unanswered (server : ZedisServer) (elements : List (RespValue Bytes)) : CommandName → Prop
  | .ping => elements.length ≠ 1 ∧ ∀ msg, cmdBulk elements 1 = some msg → 4086 < msg.length
  | .echo => ∃ msg, cmdBulk elements 1 = some msg ∧ 4086 < msg.length
  | .get => ∃ key d, cmdBulk elements 1 = some key ∧ FoundAt server.kv key d ∧
      4086 < (walkEntry server.kv key d).value.length
  | _ => False

/-- The arguments of a range request. -/
def rangeArgs (elements : List (RespValue Bytes)) : Option (Bytes × Int × Int) :=
  match cmdBulk elements 1, cmdBulk elements 2, cmdBulk elements 3 with
  | some key, some startStr, some stopStr =>
    match parseI64 startStr, parseI64 stopStr with
    | some start, some stop => some (key, start, stop)
    | _, _ => none
  | _, _, _ => none

/-- The strings that a range request asks for. -/
def requested (server : ZedisServer) (elements : List (RespValue Bytes)) :
    CommandName → Option (List Bytes)
  | .zrange => (rangeArgs elements).map fun (key, start, stop) =>
      slice (zsetItems server.zsets key) start stop
  | .lrange => (rangeArgs elements).map fun (key, start, stop) =>
      slice (listItems server.lists server.log key) start stop
  | _ => none

/-- A channel name without a NUL, and members that fit in the reply. -/
def Whole (server : ZedisServer) (elements : List (RespValue Bytes)) : CommandName → Prop
  | .subscribe => ∀ channel, cmdBulk elements 1 = some channel → 0 ∉ channelName channel
  | .zrange => ∀ items, requested server elements .zrange = some items →
      (rangeText items).length < 8192
  | _ => True

/-- The ring after a command. -/
def ringAfter (server : ZedisServer) (elements : List (RespValue Bytes)) :
    CommandName → ZedisRingBuffer
  | .publish =>
    match cmdBulk elements 1, cmdBulk elements 2 with
    | some channel, some message =>
      (zedisRingPublish server.ring (channelName channel) message).getD server.ring
    | _, _ => server.ring
  | _ => server.ring

/-- **The calls of a reply.** -/
inductive Reply (server : ZedisServer) (fd : Nat) (elements : List (RespValue Bytes))
    (command : CommandName) : List QueueCall → Prop
  | value (size : Nat) (value : RespValue Bytes) : Encodable value → (encode value).length < size →
      size ≤ 4096 → ¬ Unanswered server elements command → Whole server elements command →
      Reply server fd elements command [encodedCall fd size value]
  | unanswered : Unanswered server elements command → Reply server fd elements command []
  | subscribed (channel : Bytes) : command = .subscribe → cmdBulk elements 1 = some channel →
      Reply server fd elements command [⟨fd, 512, subscribeText (channelName channel) ++ [0],
        (subscribeText (channelName channel)).length, false⟩]
  | range (items : List Bytes) (text : Bytes) : requested server elements command = some items →
      fittingText items 8192 = some text → (command ≠ .zrange → (rangeText items).length < 8192) →
      Reply server fd elements command [⟨fd, 8192, text, text.length, false⟩]
  | quit : command = .quit → Reply server fd elements command []

/-- A push: the encoding of a value. -/
def Pushed (call : QueueCall) : Prop :=
  ∃ fd value, Encodable value ∧ (encode value).length < messageSize ∧
    call = ⟨fd, messageSize, encode value, (encode value).length, true⟩

/-- **What the handler of a command does.** -/
def Handles (server : ZedisServer) (fd : Nat) (elements : List (RespValue Bytes))
    (command : CommandName) : Prop :=
  ∃ rc after pushes own, command.fn server fd elements = some (rc, after) ∧
    Emits server (ringAfter server elements command) after (pushes ++ own) ∧
    (∀ call ∈ pushes, Pushed call) ∧ Reply server fd elements command own

/-! ### Handlers that send a value -/

section Leaves

variable {server base : ZedisServer} {fd : Nat} {elements : List (RespValue Bytes)}
  {command : CommandName}

theorem Handles.of_value {size : Nat} {value : RespValue Bytes}
    (runs : command.fn server fd elements = some (0, queueWrite base (encodedCall fd size value)))
    (prepared : Emits server (ringAfter server elements command) base [])
    (encodable : Encodable value) (fits : (encode value).length < size) (small : size ≤ 4096)
    (answered : ¬ Unanswered server elements command) (whole : Whole server elements command) :
    Handles server fd elements command :=
  ⟨0, _, [], [_], runs, prepared.queue _, nofun, .value size value encodable fits small answered whole⟩

theorem Handles.of_error
    (runs : ∃ msg, command.fn server fd elements = some (replyError base fd msg) ∧ Line msg)
    (prepared : Emits server (ringAfter server elements command) base [])
    (answered : ¬ Unanswered server elements command) (whole : Whole server elements command) :
    Handles server fd elements command := by
  obtain ⟨msg, runs, line⟩ := runs
  rw [replyError_eq line] at runs
  refine .of_value runs prepared line.plain ?_ (by decide) answered whole
  rw [encode, length_encode_line]
  exact line.2

theorem Handles.of_simple
    (runs : ∃ msg, command.fn server fd elements = some (replySimple base fd msg) ∧ Line msg)
    (prepared : Emits server (ringAfter server elements command) base [])
    (answered : ¬ Unanswered server elements command) (whole : Whole server elements command) :
    Handles server fd elements command := by
  obtain ⟨msg, runs, line⟩ := runs
  rw [replySimple_eq line] at runs
  refine .of_value runs prepared line.plain ?_ (by decide) answered whole
  rw [encode, length_encode_line]
  exact line.2

theorem Handles.of_integer {v : Int}
    (runs : command.fn server fd elements = some (replyInteger base fd v))
    (prepared : Emits server (ringAfter server elements command) base [])
    (answered : ¬ Unanswered server elements command) (whole : Whole server elements command) :
    Handles server fd elements command := by
  obtain ⟨low, high⟩ := wrap64_range v
  rw [replyInteger_eq] at runs
  refine .of_value runs prepared ⟨low, high⟩ ?_ (by decide) answered whole
  have short := length_encode_integer low high
  omega

theorem Handles.of_null (runs : command.fn server fd elements = some (replyNull base fd))
    (prepared : Emits server (ringAfter server elements command) base [])
    (answered : ¬ Unanswered server elements command) (whole : Whole server elements command) :
    Handles server fd elements command := by
  rw [replyNull_eq] at runs
  exact .of_value runs prepared trivial (by decide) (by decide) answered whole

theorem Handles.of_bulk {s : Bytes} (runs : command.fn server fd elements = some (replyBulk base fd s))
    (prepared : Emits server (ringAfter server elements command) base [])
    (long : Unanswered server elements command ↔ 4086 < s.length)
    (whole : Whole server elements command) : Handles server fd elements command := by
  rw [replyBulk_eq] at runs
  by_cases short : s.length ≤ 4086
  · rw [if_pos short] at runs
    exact .of_value runs prepared trivial ((length_bulk_lt_iff s).mpr short) le_rfl
      (fun quiet => absurd (long.mp quiet) (Nat.not_lt.mpr short)) whole
  · rw [if_neg short] at runs
    exact ⟨0, base, [], [], runs, prepared, nofun, .unanswered (long.mpr (Nat.not_le.mp short))⟩

end Leaves

/-! ### Strings -/

section Strings

variable {server : ZedisServer} (inv : ServerInv server) (fd : Nat) (elements : List (RespValue Bytes))
include inv

theorem pingCommand_handles : Handles server fd elements .ping := by
  by_cases alone : elements.length = 1
  · exact .of_simple ⟨_, if_pos alone, line_ofList (by decide)⟩
      (.refl inv) (fun quiet => quiet.1 alone) trivial
  · cases argument : cmdBulk elements 1 with
    | none =>
      refine ⟨0, server, [], [], ?_, .refl inv, nofun, .unanswered ⟨alone, fun msg has => ?_⟩⟩
      · rw [CommandName.fn, pingCommand, if_neg alone, argument]
      · rw [argument] at has
        cases has
    | some msg =>
      refine .of_bulk (by rw [CommandName.fn, pingCommand, if_neg alone, argument]) (.refl inv)
        ⟨fun quiet => quiet.2 msg argument, fun long => ⟨alone, fun other has => ?_⟩⟩ trivial
      rw [argument] at has
      cases has
      exact long

theorem echoCommand_handles : Handles server fd elements .echo := by
  cases argument : cmdBulk elements 1 with
  | none =>
    refine .of_error ⟨_, by rw [CommandName.fn, echoCommand, argument], line_ofList (by decide)⟩
      (.refl inv) ?_ trivial
    rintro ⟨msg, has, -⟩
    rw [argument] at has
    cases has
  | some msg =>
    refine .of_bulk (by rw [CommandName.fn, echoCommand, argument]) (.refl inv)
      ⟨?_, fun long => ⟨msg, argument, long⟩⟩ trivial
    rintro ⟨other, has, long⟩
    rw [argument] at has
    cases has
    exact long

/-- The table of the strings has changed. -/
theorem Emits.of_kv {kv : ZedisHashTable} (kept : TableInv kv) :
    Emits server server.ring { server with kv := kv } [] :=
  ⟨⟨kept, inv.registries, inv.fds, inv.counted⟩, rfl, rfl, (List.append_nil _).symm⟩

theorem setCommand_handles : Handles server fd elements .set := by
  cases first : cmdBulk elements 1 with
  | none =>
    exact .of_error ⟨_, by rw [CommandName.fn, setCommand, first], line_ofList (by decide)⟩
      (.refl inv) id trivial
  | some key =>
    cases second : cmdBulk elements 2 with
    | none =>
      exact .of_error ⟨_, by rw [CommandName.fn, setCommand, first, second], line_ofList (by decide)⟩
        (.refl inv) id trivial
    | some val =>
      obtain ⟨rc, kv, ends, kept⟩ := zedisHtSet_inv inv.kv key val
      by_cases refused : rc ≠ 0
      · refine .of_error ⟨_, by
            simp only [CommandName.fn, setCommand, first, second, ends, Option.map_some]
            exact congrArg some (if_pos refused), line_ofList (by decide)⟩
          (Emits.of_kv inv kept) id trivial
      · refine .of_simple ⟨_, by
            simp only [CommandName.fn, setCommand, first, second, ends, Option.map_some]
            exact congrArg some (if_neg refused), line_ofList (by decide)⟩
          (Emits.of_kv inv kept) id trivial

theorem getCommand_handles : Handles server fd elements .get := by
  cases argument : cmdBulk elements 1 with
  | none =>
    refine .of_error ⟨_, by rw [CommandName.fn, getCommand, argument], line_ofList (by decide)⟩
      (.refl inv) ?_ trivial
    rintro ⟨key, d, has, -⟩
    rw [argument] at has
    cases has
  | some key =>
    rcases zedisHtGet_cases inv.kv key zedisHtMaxValue with ⟨d, found, hit⟩ | ⟨missing, miss⟩
    · refine .of_bulk (by simp only [CommandName.fn, getCommand, argument, hit, Option.map_some]; rfl)
        (.refl inv) ⟨?_, fun long => ⟨key, d, argument, found, ?_⟩⟩ trivial
      · rintro ⟨other, d', has, found', long⟩
        rw [argument] at has
        cases has
        rw [found.unique found', length_readBuffer]
        exact long
      · rw [length_readBuffer] at long
        exact long
    · refine .of_null (by simp only [CommandName.fn, getCommand, argument, miss, Option.map_some])
        (.refl inv) ?_ trivial
      rintro ⟨other, d, has, found, -⟩
      rw [argument] at has
      cases has
      exact missing d found

theorem delCommand_handles : Handles server fd elements .del := by
  cases argument : cmdBulk elements 1 with
  | none =>
    exact .of_error ⟨_, by rw [CommandName.fn, delCommand, argument], line_ofList (by decide)⟩
      (.refl inv) id trivial
  | some key =>
    obtain ⟨rc, kv, ends, kept⟩ := zedisHtDel_inv inv.kv key
    exact .of_integer (by simp only [CommandName.fn, delCommand, argument, ends, Option.map_some]; rfl)
      (Emits.of_kv inv kept) id trivial

end Strings

/-! ### The order book -/

section Book

variable {server : ZedisServer} (inv : ServerInv server) (fd : Nat) (elements : List (RespValue Bytes))

/-- The levels of the order book have changed. -/
theorem Emits.of_book (inv : ServerInv server) (book : ZedisOrderBook) :
    Emits server server.ring { server with book := book } [] :=
  ⟨⟨inv.kv, inv.registries, inv.fds, inv.counted⟩, rfl, rfl, (List.append_nil _).symm⟩

include inv

theorem orderCommand_handles {command : CommandName} {wrongNumber invalid : Bytes}
    {place : ZedisOrderBook → Int → Int → Option ZedisOrderBook}
    (isOrder : command.fn = orderCommand wrongNumber invalid place) (line : Line wrongNumber)
    (line' : Line invalid) (answered : ¬ Unanswered server elements command)
    (whole : Whole server elements command) (ring : ringAfter server elements command = server.ring) :
    Handles server fd elements command := by
  have unchanged : Emits server (ringAfter server elements command) server [] := ring ▸ .refl inv
  have placed : ∀ book, Emits server (ringAfter server elements command)
      { server with book := book } [] := fun book => ring ▸ .of_book inv book
  cases first : cmdBulk elements 1 with
  | none => exact .of_error ⟨_, by rw [isOrder, orderCommand, first], line⟩ unchanged answered whole
  | some priceStr =>
    cases second : cmdBulk elements 2 with
    | none =>
      exact .of_error ⟨_, by rw [isOrder, orderCommand, first, second], line⟩ unchanged answered whole
    | some qtyStr =>
      cases isPrice : parseInt priceStr with
      | none =>
        exact .of_error ⟨_, by simp only [isOrder, orderCommand, first, second, isPrice], line'⟩
          unchanged answered whole
      | some price =>
        cases isQty : parseI64 qtyStr with
        | none =>
          exact .of_error ⟨_, by simp only [isOrder, orderCommand, first, second, isPrice, isQty],
            line'⟩ unchanged answered whole
        | some qty =>
          cases done : place server.book price qty with
          | none =>
            exact .of_error ⟨_, by
              simp only [isOrder, orderCommand, first, second, isPrice, isQty, done]
              rfl, line_ofList (by decide)⟩ unchanged answered whole
          | some book =>
            exact .of_integer (by
              simp only [isOrder, orderCommand, first, second, isPrice, isQty, done]
              rfl) (placed book) answered whole

theorem bidCommand_handles : Handles server fd elements .bid :=
  orderCommand_handles inv fd elements rfl (line_ofList (by decide)) (line_ofList (by decide))
    id trivial rfl

theorem askCommand_handles : Handles server fd elements .ask :=
  orderCommand_handles inv fd elements rfl (line_ofList (by decide)) (line_ofList (by decide))
    id trivial rfl

omit inv in
theorem bookText_eq (bid ask : Int) :
    bookText bid ask = encode (.array [.integer bid, .integer ask]) := by
  simp only [bookText, encode, encodeAll, List.append_nil, List.append_assoc, List.cons_append]
  rfl

omit inv in
/-- The answer to a `BOOK` fits in its buffer. -/
theorem length_encode_book {bid ask : Int} (bidRange : -2 ^ 63 ≤ bid ∧ bid < 2 ^ 63)
    (askRange : -2 ^ 63 ≤ ask ∧ ask < 2 ^ 63) :
    (encode (.array [.integer bid, .integer ask])).length < 128 := by
  have one := length_encode_integer bidRange.1 bidRange.2
  have two := length_encode_integer askRange.1 askRange.2
  simp only [encode, encodeAll, List.length_cons, List.length_append, List.length_nil,
    show crlf.length = 2 from rfl, show (decimal (0 + 1 + 1)).length = 1 from rfl] at one two ⊢
  omega

theorem bookCommand_handles : Handles server fd elements .book := by
  cases argument : cmdBulk elements 1 with
  | none =>
    exact .of_error ⟨_, by rw [CommandName.fn, bookCommand, argument], line_ofList (by decide)⟩
      (.refl inv) id trivial
  | some priceStr =>
    cases isPrice : parseInt priceStr with
    | none =>
      exact .of_error ⟨_, by simp only [CommandName.fn, bookCommand, argument, isPrice]; rfl,
        line_ofList (by decide)⟩ (.refl inv) id trivial
    | some price =>
      cases found : zedisBookLevel server.book price with
      | none =>
        exact .of_error ⟨_, by simp only [CommandName.fn, bookCommand, argument, isPrice, found]; rfl,
          line_ofList (by decide)⟩ (.refl inv) id trivial
      | some level =>
        have bidRange := wrap64_range level.bidQty
        have askRange := wrap64_range level.askQty
        generalize bid_eq : wrap64 level.bidQty = bid at bidRange
        generalize ask_eq : wrap64 level.askQty = ask at askRange
        have short := length_encode_book bidRange askRange
        have encodable : Encodable (.array [.integer bid, .integer ask]) := ⟨bidRange, askRange, trivial⟩
        refine .of_value ?_ (.refl inv) encodable short (by decide) id trivial
        simp only [CommandName.fn, bookCommand, argument, isPrice, found, bid_eq, ask_eq, bookText_eq]
        exact congrArg some (sendPrinted_fits (length_encode_pos _) short)

end Book

/-! ### Sorted sets and lists -/

section Collections

variable {server : ZedisServer} (inv : ServerInv server) (fd : Nat) (elements : List (RespValue Bytes))

/-- The registries have changed. -/
theorem Emits.of_registries (inv : ServerInv server) {registries : Registries}
    (kept : RegistriesInv registries) :
    Emits server server.ring { server with toRegistries := registries } [] :=
  ⟨⟨inv.kv, kept, inv.fds, inv.counted⟩, rfl, rfl, (List.append_nil _).symm⟩

include inv

theorem zaddCommand_handles : Handles server fd elements .zadd := by
  cases first : cmdBulk elements 1 with
  | none =>
    exact .of_error ⟨_, by rw [CommandName.fn, zaddCommand, first], line_ofList (by decide)⟩
      (.refl inv) id trivial
  | some key =>
    cases second : cmdBulk elements 2 with
    | none =>
      exact .of_error ⟨_, by rw [CommandName.fn, zaddCommand, first, second], line_ofList (by decide)⟩
        (.refl inv) id trivial
    | some scoreStr =>
      cases third : cmdBulk elements 3 with
      | none =>
        exact .of_error ⟨_, by rw [CommandName.fn, zaddCommand, first, second, third],
            line_ofList (by decide)⟩
          (.refl inv) id trivial
      | some member =>
        cases isScore : parseI64 scoreStr with
        | none =>
          exact .of_error ⟨_, by
            simp only [CommandName.fn, zaddCommand, first, second, third, isScore]
            rfl, line_ofList (by decide)⟩ (.refl inv) id trivial
        | some score =>
          obtain ⟨⟨zindex, zinv⟩, lists⟩ := inv.registries
          obtain ⟨prev, looked⟩ := zedisZsetRegScore_returns zinv key member
          obtain ⟨_, _, index', rc, zsets, added, -, -, kept⟩ :=
            zedisZsetRegAdd_cases zinv key score member
          have prepared : Emits server server.ring { server with zsets := zsets } [] :=
            .of_registries inv ⟨⟨index', kept⟩, lists⟩
          by_cases refused : rc ≠ 0
          · exact .of_error ⟨_, by
              simp only [CommandName.fn, zaddCommand, first, second, third, isScore, looked, added,
                Option.bind_some, Option.map_some]
              exact congrArg some (if_pos refused), line_ofList (by decide)⟩ prepared id trivial
          · exact .of_integer (by
              simp only [CommandName.fn, zaddCommand, first, second, third, isScore, looked, added,
                Option.bind_some, Option.map_some]
              exact congrArg some (if_neg refused)) prepared id trivial

theorem zscoreCommand_handles : Handles server fd elements .zscore := by
  cases first : cmdBulk elements 1 with
  | none =>
    exact .of_error ⟨_, by rw [CommandName.fn, zscoreCommand, first], line_ofList (by decide)⟩
      (.refl inv) id trivial
  | some key =>
    cases second : cmdBulk elements 2 with
    | none =>
      exact .of_error ⟨_, by rw [CommandName.fn, zscoreCommand, first, second], line_ofList (by decide)⟩
        (.refl inv) id trivial
    | some member =>
      obtain ⟨⟨zindex, zinv⟩, -⟩ := inv.registries
      obtain ⟨found, looked⟩ := zedisZsetRegScore_returns zinv key member
      cases found with
      | none =>
        exact .of_null (by simp only [CommandName.fn, zscoreCommand, first, second, looked,
          Option.map_some]) (.refl inv) id trivial
      | some score =>
        obtain ⟨low, high⟩ := wrap64_range score
        have double := natAbs_toDouble (n := wrap64 score) (by omega)
        obtain ⟨positive, short⟩ := length_printG17 (n := toDouble (wrap64 score)) (by omega)
        refine .of_bulk (by
          simp only [CommandName.fn, zscoreCommand, first, second, looked, Option.map_some]
          exact congrArg some (if_pos positive)) (.refl inv) ⟨nofun, fun long => ?_⟩ trivial
        rw [length_readBuffer] at long
        omega

theorem lpushCommand_handles : Handles server fd elements .lpush := by
  cases first : cmdBulk elements 1 with
  | none =>
    exact .of_error ⟨_, by rw [CommandName.fn, lpushCommand, first], line_ofList (by decide)⟩
      (.refl inv) id trivial
  | some key =>
    cases second : cmdBulk elements 2 with
    | none =>
      exact .of_error ⟨_, by rw [CommandName.fn, lpushCommand, first, second], line_ofList (by decide)⟩
        (.refl inv) id trivial
    | some val =>
      obtain ⟨zsets, ⟨lindex, lok⟩⟩ := inv.registries
      obtain ⟨_, _, index', rc, lists, log, pushed, -, kept, -⟩ :=
        zedisListRegLpush_cases lok server.log key val
      obtain ⟨len, measured⟩ := zedisListRegLlen_returns kept key
      have prepared : Emits server server.ring { server with lists := lists, log := log } [] :=
        .of_registries inv ⟨zsets, ⟨index', kept⟩⟩
      by_cases refused : rc ≠ 0
      · exact .of_error ⟨_, by
          simp only [CommandName.fn, lpushCommand, first, second, pushed, Option.bind_some]
          exact if_pos refused, line_ofList (by decide)⟩ prepared id trivial
      · exact .of_integer (by
          simp only [CommandName.fn, lpushCommand, first, second, pushed, Option.bind_some]
          rw [if_neg refused, measured]
          rfl) prepared id trivial

theorem llenCommand_handles : Handles server fd elements .llen := by
  cases argument : cmdBulk elements 1 with
  | none =>
    exact .of_error ⟨_, by rw [CommandName.fn, llenCommand, argument], line_ofList (by decide)⟩
      (.refl inv) id trivial
  | some key =>
    obtain ⟨-, ⟨lindex, lok⟩⟩ := inv.registries
    obtain ⟨len, measured⟩ := zedisListRegLlen_returns lok key
    exact .of_integer (by simp only [CommandName.fn, llenCommand, argument, measured]; rfl)
      (.refl inv) id trivial

omit inv in
theorem rangeArgs_eq_some {key : Bytes} {start stop : Int}
    (args : rangeArgs elements = some (key, start, stop)) : ∃ startStr stopStr,
      cmdBulk elements 1 = some key ∧ cmdBulk elements 2 = some startStr ∧
      cmdBulk elements 3 = some stopStr ∧ parseI64 startStr = some start ∧
      parseI64 stopStr = some stop := by
  unfold rangeArgs at args
  split at args
  · rename_i first second third
    split at args
    · rename_i isStart isStop
      cases args
      exact ⟨_, _, first, second, third, isStart, isStop⟩
    · cases args
  · cases args

omit inv in
/-- A range handler whose arguments are read. -/
theorem rangeCommand_eq {key : Bytes} {start stop : Int} (wrongNumber failed : Bytes)
    (range : ZedisServer → Bytes → Int → Int → Nat → Option (Option Bytes))
    (args : rangeArgs elements = some (key, start, stop)) :
    rangeCommand wrongNumber failed range server fd elements =
      (range server key start stop 8192).map (sendRange server fd failed) := by
  obtain ⟨startStr, stopStr, first, second, third, isStart, isStop⟩ := rangeArgs_eq_some elements args
  simp only [rangeCommand, first, second, third, isStart, isStop]

omit inv in
/-- Without its arguments, a range handler replies with an error. -/
theorem rangeCommand_error {wrongNumber failed : Bytes}
    {range : ZedisServer → Bytes → Int → Int → Nat → Option (Option Bytes)}
    (args : rangeArgs elements = none) (line : Line wrongNumber) :
    ∃ msg, rangeCommand wrongNumber failed range server fd elements =
      some (replyError server fd msg) ∧ Line msg := by
  cases first : cmdBulk elements 1 with
  | none => exact ⟨_, by simp only [rangeCommand, first], line⟩
  | some key =>
    cases second : cmdBulk elements 2 with
    | none => exact ⟨_, by simp only [rangeCommand, first, second], line⟩
    | some startStr =>
      cases third : cmdBulk elements 3 with
      | none => exact ⟨_, by simp only [rangeCommand, first, second, third], line⟩
      | some stopStr =>
        simp only [rangeCommand, first, second, third]
        cases isStart : parseI64 startStr with
        | none => exact ⟨_, rfl, line_ofList (by decide)⟩
        | some start =>
          cases isStop : parseI64 stopStr with
          | none => exact ⟨_, rfl, line_ofList (by decide)⟩
          | some stop =>
            simp only [rangeArgs, first, second, third, isStart, isStop] at args
            cases args

/-- **`ZRANGE` with its arguments.** -/
theorem zrangeCommand_sends {key : Bytes} {start stop : Int}
    (args : rangeArgs elements = some (key, start, stop)) :
    ∃ text, zrangeCommand server fd elements =
        some (0, queueWrite server ⟨fd, 8192, text, text.length, false⟩) ∧
      fittingText (slice (zsetItems server.zsets key) start stop) 8192 = some text := by
  obtain ⟨⟨zindex, zinv⟩, -⟩ := inv.registries
  have few := length_slice_le (zsetItems server.zsets key) start stop
  have bounded := length_zsetItems zinv key
  unfold zedisBtreeMaxEntries at bounded
  have digits := (decimal_spec (slice (zsetItems server.zsets key) start stop).length).short 3
    (by omega)
  -- the header of at most 4096 members fits, so something is printed
  obtain ⟨text, printed⟩ : ∃ text,
      fittingText (slice (zsetItems server.zsets key) start stop) 8192 = some text := by
    rw [fittingText, formatted, if_neg]
    · exact ⟨_, rfl⟩
    · simp only [arrayHeader, List.cons_append, List.length_cons, List.length_append,
        show crlf.length = 2 from rfl]
      omega
  refine ⟨text, ?_, printed⟩
  rw [zrangeCommand, rangeCommand_eq fd elements _ _ _ args, zedisZsetRegRange_eq zinv, printed]
  rfl

/-- **`LRANGE` with its arguments.** -/
theorem lrangeCommand_sends {key : Bytes} {start stop : Int}
    (args : rangeArgs elements = some (key, start, stop)) :
    ∃ failed, lrangeCommand server fd elements = some (sendRange server fd failed (formatted
        (rangeText (slice (listItems server.lists server.log key) start stop)) 8192)) ∧ Line failed := by
  obtain ⟨-, ⟨lindex, lok⟩⟩ := inv.registries
  exact ⟨_, by
    rw [lrangeCommand, rangeCommand_eq fd elements _ _ _ args, zedisListRegLrange_eq lok]
    rfl, line_ofList (by decide)⟩

theorem zrangeCommand_handles : Handles server fd elements .zrange := by
  cases args : rangeArgs elements with
  | none =>
    refine .of_error ?_ (.refl inv) id fun items asked => ?_
    · rw [CommandName.fn, zrangeCommand]
      exact rangeCommand_error fd elements args (line_ofList (by decide))
    · rw [requested, args] at asked
      cases asked
  | some request =>
    obtain ⟨text, runs, printed⟩ := zrangeCommand_sends inv fd elements args
    refine ⟨0, _, [], [_], runs, (Emits.refl inv).queue _, nofun,
      .range _ text ?_ printed (absurd rfl)⟩
    rw [requested, args]
    rfl

theorem lrangeCommand_handles : Handles server fd elements .lrange := by
  cases args : rangeArgs elements with
  | none =>
    refine .of_error ?_ (.refl inv) id trivial
    rw [CommandName.fn, lrangeCommand]
    exact rangeCommand_error fd elements args (line_ofList (by decide))
  | some request =>
    obtain ⟨key, start, stop⟩ := request
    obtain ⟨failed, runs, line⟩ := lrangeCommand_sends inv fd elements args
    by_cases long : (rangeText (slice (listItems server.lists server.log key) start stop)).length ≥ 8192
    · rw [formatted, if_pos long] at runs
      exact .of_error ⟨failed, runs, line⟩ (.refl inv) id trivial
    · rw [formatted, if_neg long] at runs
      refine ⟨0, _, [], [_], runs, (Emits.refl inv).queue _, List.forall_mem_nil _,
        .range _ _ ?_ (fittingText_of_fits (Nat.not_le.mp long)) fun _ => Nat.not_le.mp long⟩
      rw [requested, args]
      rfl

end Collections

/-! ### Channels -/

section Channels

variable {server : ZedisServer}

/-- A published message. -/
def published (channel payload : Bytes) : RespValue Bytes :=
  .array [.bulk (ascii "message"), .bulk channel, .bulk payload]

theorem published_encodable (channel payload : Bytes) : Encodable (published channel payload) :=
  ⟨trivial, trivial, trivial, trivial⟩

/-- The push of a message to a connection. -/
def pushCall (channel payload : Bytes) (conn : Conn) : QueueCall :=
  ⟨conn.fd, messageSize, encode (published channel payload),
    (encode (published channel payload)).length, true⟩

theorem length_channelName (channel : Bytes) : (channelName channel).length ≤ 63 := by
  unfold channelName
  rw [List.length_take]
  split
  · omega
  · omega

theorem length_cstr (bytes : Bytes) : (cstr bytes).length ≤ bytes.length :=
  (List.takeWhile_sublist _).length_le

/-- What is printed for a message is its encoding. -/
theorem message_eq (channel payload : Bytes) :
    messageHeader channel payload.length ++ payload ++ crlf =
      encode (published (cstr channel) payload) := by
  simp only [messageHeader, published, encode, encodeAll, List.append_nil, List.append_assoc,
    List.cons_append]
  rfl

theorem length_published {channel payload : Bytes} (named : channel.length ≤ 63)
    (short : payload.length ≤ zedisRingMsgMax) :
    (encode (published channel payload)).length ≤ 607 := by
  unfold zedisRingMsgMax at short
  have one := length_encode_bulk (ascii "message")
  have two := length_encode_bulk channel
  have three := length_encode_bulk payload
  have digits := (decimal_spec channel.length).short 1 (by omega)
  have digits' := (decimal_spec payload.length).short 2 (by omega)
  rw [show (ascii "message").length = 7 from rfl, show (decimal 7).length = 1 from rfl] at one
  rw [published, encode, encodeAll, encodeAll, encodeAll, encodeAll]
  simp only [List.length_cons, List.length_append, List.length_nil, show crlf.length = 2 from rfl,
    show (decimal (0 + 1 + 1 + 1)).length = 1 from rfl]
  omega

/-- Some calls one after the other. -/
theorem Emits.foldl {ring : ZedisRingBuffer} (more : List QueueCall) :
    ∀ {after : ZedisServer} {calls : List QueueCall}, Emits server ring after calls →
      Emits server ring (more.foldl queueWrite after) (calls ++ more) := by
  induction more with
  | nil =>
    intro after calls emits
    rw [List.append_nil]
    exact emits
  | cons call more ih =>
    intro after calls emits
    rw [List.append_cons]
    exact ih (emits.queue call)

/-- **A message that the ring takes is broadcast.** -/
theorem serverBroadcastChannel_eq (server : ZedisServer) (channel : Bytes) {payload : Bytes}
    (named : channel.length ≤ 63)
    (short : payload.length ≤ zedisRingMsgMax) : serverBroadcastChannel server channel payload =
      (server.conns.filter (receives channel)).foldl
        (fun server conn => queueWrite server (pushCall (cstr channel) payload conn)) server := by
  have small := length_published ((length_cstr channel).trans named) short
  rw [← message_eq, List.length_append, List.length_append, show crlf.length = 2 from rfl] at small
  have size : messageSize = 768 := rfl
  unfold serverBroadcastChannel
  dsimp only
  rw [if_neg (by omega), if_neg (by omega), message_eq]
  rfl

/-- **What `PUBLISH` of a message that the ring takes does**: a push to each receiver, and the number of
receivers as the reply. -/
theorem publishCommand_runs (server : ZedisServer) (fd : Nat) {elements : List (RespValue Bytes)}
    {channel message : Bytes} {ring : ZedisRingBuffer} (first : cmdBulk elements 1 = some channel)
    (second : cmdBulk elements 2 = some message)
    (taken : zedisRingPublish server.ring (channelName channel) message = some ring) :
    publishCommand server fd elements = some (0,
      ((server.conns.filter (receives (channelName channel))).map
          (pushCall (cstr (channelName channel)) message) ++
        [encodedCall fd 64 (.integer (wrap64
          (server.conns.filter (receives (channelName channel))).length))]).foldl queueWrite
            { server with ring := ring }) := by
  obtain ⟨short, -⟩ := zedisRingPublish_eq_some taken
  simp only [publishCommand, first, second, taken]
  rw [serverBroadcastChannel_eq _ _ (length_channelName channel) short, replyInteger_eq]
  simp only [List.foldl_append, List.foldl_map, List.foldl_cons, List.foldl_nil]

variable (inv : ServerInv server) (fd : Nat) (elements : List (RespValue Bytes))
include inv

/-- Its calls, and the invariant after it. -/
theorem publishCommand_accepts {channel message : Bytes} {ring : ZedisRingBuffer}
    (first : cmdBulk elements 1 = some channel) (second : cmdBulk elements 2 = some message)
    (taken : zedisRingPublish server.ring (channelName channel) message = some ring) :
    ∃ after, publishCommand server fd elements = some (0, after) ∧
      Emits server ring after
        ((server.conns.filter (receives (channelName channel))).map
            (pushCall (cstr (channelName channel)) message) ++
          [encodedCall fd 64 (.integer (wrap64
            (server.conns.filter (receives (channelName channel))).length))]) := by
  have prepared : Emits server ring { server with ring := ring } [] :=
    ⟨⟨inv.kv, inv.registries, inv.fds, inv.counted⟩, rfl, rfl, (List.append_nil _).symm⟩
  exact ⟨_, publishCommand_runs server fd first second taken, prepared.foldl _⟩

theorem publishCommand_handles : Handles server fd elements .publish := by
  cases first : cmdBulk elements 1 with
  | none =>
    have unchanged : Emits server (ringAfter server elements .publish) server [] := by
      rw [ringAfter, first]
      exact .refl inv
    exact .of_error ⟨_, by rw [CommandName.fn, publishCommand, first], line_ofList (by decide)⟩
      unchanged id trivial
  | some channel =>
    cases second : cmdBulk elements 2 with
    | none =>
      have unchanged : Emits server (ringAfter server elements .publish) server [] := by
        rw [ringAfter, first, second]
        exact .refl inv
      exact .of_error ⟨_, by rw [CommandName.fn, publishCommand, first, second], line_ofList (by decide)⟩
        unchanged id trivial
    | some message =>
      have ring : ringAfter server elements .publish =
          (zedisRingPublish server.ring (channelName channel) message).getD server.ring := by
        rw [ringAfter, first, second]
      cases taken : zedisRingPublish server.ring (channelName channel) message with
      | none =>
        have unchanged : Emits server (ringAfter server elements .publish) server [] := by
          rw [ring, taken]
          exact .refl inv
        exact .of_error ⟨_, by simp only [CommandName.fn, publishCommand, first, second, taken]; rfl,
          line_ofList (by decide)⟩ unchanged id trivial
      | some next =>
        obtain ⟨after, runs, emits⟩ := publishCommand_accepts inv fd elements first second taken
        obtain ⟨low, high⟩ :=
          wrap64_range (server.conns.filter (receives (channelName channel))).length
        have digits := length_encode_integer low high
        rw [taken, Option.getD_some] at ring
        rw [← ring] at emits
        generalize wrap64 (server.conns.filter (receives (channelName channel))).length = receivers
          at emits low high digits
        have encodable : Encodable (.integer receivers) := ⟨low, high⟩
        refine ⟨0, after, _, [_], runs, emits, fun call member => ?_,
          .value 64 _ encodable (by omega) (by decide) id trivial⟩
        obtain ⟨conn, -, rfl⟩ := List.mem_map.mp member
        have named := (length_cstr (channelName channel)).trans (length_channelName channel)
        have small := length_published named (zedisRingPublish_eq_some taken).1
        have size : messageSize = 768 := rfl
        exact ⟨conn.fd, _, published_encodable _ _, by omega, rfl⟩

omit inv in
theorem length_subscribeText {channel : Bytes} (named : channel.length ≤ 63) :
    0 < (subscribeText channel).length ∧ (subscribeText channel).length < 512 := by
  have digits := (decimal_spec channel.length).short 1 (by omega)
  have shorter := length_cstr channel
  simp only [subscribeText, List.length_append, show crlf.length = 2 from rfl,
    show (ascii "*3\r\n$9\r\nsubscribe\r\n$").length = 20 from rfl,
    show (ascii "\r\n:1\r\n").length = 6 from rfl]
  omega

theorem subscribeCommand_handles : Handles server fd elements .subscribe := by
  cases argument : cmdBulk elements 1 with
  | none =>
    refine .of_error ⟨_, by rw [CommandName.fn, subscribeCommand, argument], line_ofList (by decide)⟩
      (.refl inv) id fun channel has => ?_
    rw [argument] at has
    cases has
  | some channel =>
    have prepared : Emits server server.ring { server with conns := changeConn server.conns fd fun conn =>
        { conn with subscribeChannel := channelName channel, subscribed := true } } [] := by
      refine ⟨inv.changeConn fd _ (fun _ _ same => same) fun conn member _ => ?_, rfl, rfl,
        (List.append_nil _).symm⟩
      exact ⟨(inv.counted conn member).sent, (inv.counted conn member).room⟩
    obtain ⟨positive, short⟩ := length_subscribeText (length_channelName channel)
    refine ⟨0, _, [], [_], ?_, prepared.queue _, nofun, .subscribed channel rfl argument⟩
    simp only [CommandName.fn, subscribeCommand, argument]
    exact congrArg some (sendPrinted_fits positive short)

omit inv in
theorem ServerInv.connDestroy (inv : ServerInv server) : ServerInv (connDestroy server fd) where
  kv := inv.kv
  registries := inv.registries
  fds := (List.filter_sublist.map Conn.fd).nodup inv.fds
  counted := fun conn member => inv.counted conn (List.mem_of_mem_filter member)

theorem quitCommand_handles : Handles server fd elements .quit :=
  ⟨1, _, [], [], rfl, ⟨inv.connDestroy fd, rfl, rfl, (List.append_nil _).symm⟩, nofun, .quit rfl⟩

/-- **What each handler does.** -/
theorem CommandName.handles (command : CommandName) : Handles server fd elements command := by
  cases command with
  | ping => exact pingCommand_handles inv fd elements
  | echo => exact echoCommand_handles inv fd elements
  | set => exact setCommand_handles inv fd elements
  | get => exact getCommand_handles inv fd elements
  | bid => exact bidCommand_handles inv fd elements
  | ask => exact askCommand_handles inv fd elements
  | book => exact bookCommand_handles inv fd elements
  | del => exact delCommand_handles inv fd elements
  | zadd => exact zaddCommand_handles inv fd elements
  | zscore => exact zscoreCommand_handles inv fd elements
  | zrange => exact zrangeCommand_handles inv fd elements
  | lpush => exact lpushCommand_handles inv fd elements
  | lrange => exact lrangeCommand_handles inv fd elements
  | llen => exact llenCommand_handles inv fd elements
  | publish => exact publishCommand_handles inv fd elements
  | subscribe => exact subscribeCommand_handles inv fd elements
  | quit => exact quitCommand_handles inv fd elements

end Channels

end Zedis.Server

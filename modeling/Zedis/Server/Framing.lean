/-
**Which replies are one RESP value.**

Most replies are encodings. Three are printed by hand, and each can be split or cut by what a client
put into it:

* the text for an unknown command is a line around the name: a line end in the name splits it, and a
  name of more than 486 bytes is cut by `snprintf`;
* the text of `SUBSCRIBE` announces the length of the channel name and prints it up to its first NUL;
* so do the texts of the ranges, for their elements; and `ZRANGE` leaves out the members that do not
  fit but announces them.

`all_framed_iff`: this is all. Where a range prints an element with a NUL, the announced length is too
long, and the text is one value only if what follows happens to make up for it.
-/

import Zedis.Registry.Segments
import Zedis.Resp.Framed
import Zedis.Server.Replies

namespace Zedis.Server

open Zedis.Lib Zedis.BTree Zedis.Registry Zedis.Reply Zedis.Resp

/-- The strings in the reply to a range request: `ZRANGE` leaves out those that do not fit when it is
their turn, and `LRANGE` gives up at the first. -/
def printedItems : CommandName → List Bytes → List Bytes
  | .zrange, items => fittingItems bulkText 8192 (arrayHeader items.length) items
  | _, items => if (rangeText items).length < 8192 then items else []

/-- No string that the reply to a range request prints contains a NUL. -/
def NulFree (server : ZedisServer) (cmd : RespValue Bytes) : Prop :=
  ∀ command items, commandOf cmd = some command →
    requested server (elementsOf cmd) command = some items → ∀ item ∈ printedItems command items, 0 ∉ item

/-- The text that a range request is answered with, if it is not refused. -/
def rangeReply (server : ZedisServer) (elements : List (RespValue Bytes)) (command : CommandName) :
    Option Bytes :=
  (requested server elements command).bind fun items =>
    if command = .zrange then fittingText items 8192 else formatted (rangeText items) 8192

/-- The name of an unknown command is short and has no line end, and the parts of other replies fit; a
range that prints a NUL is read as one value all the same. -/
structure Unsplit (server : ZedisServer) (cmd : RespValue Bytes) : Prop where
  unknown : ∀ name, cmdBulk (elementsOf cmd) 0 = some name → findCommand name = none →
    (cstr name).length ≤ 486 ∧ ¬ crlf <:+: cstr name
  whole : NulFree server cmd → ∀ command, commandOf cmd = some command →
    Whole server (elementsOf cmd) command
  printed : ¬ NulFree server cmd → ∀ command text, commandOf cmd = some command →
    rangeReply server (elementsOf cmd) command = some text → Framed text

/-! ### Names -/

section Unknown

variable {name : Bytes}

theorem plain_append {front text : Bytes} (noCr : 13 ∉ front) (plain : ¬ crlf <:+: text) :
    ¬ crlf <:+: front ++ text := by
  induction front with
  | nil => exact plain
  | cons b front ih =>
    rw [List.mem_cons, not_or] at noCr
    rw [List.cons_append, List.infix_cons_iff, not_or]
    refine ⟨fun starts => noCr.1 ?_, ih noCr.2⟩
    obtain ⟨rest, same⟩ := starts
    exact (List.cons.inj same).1

theorem plain_concat {text : Bytes} {b : UInt8} (noLf : b ≠ 10) (plain : ¬ crlf <:+: text) :
    ¬ crlf <:+: text ++ [b] := by
  rw [List.infix_concat_iff, not_or]
  refine ⟨fun ends => noLf ?_, plain⟩
  obtain ⟨front, same⟩ := ends
  have last := List.append_inj_right' (show front ++ [13] ++ [10] = text ++ [b] by
    rw [← same, List.append_assoc]; rfl) rfl
  exact (List.cons.inj last).1.symm

/-- The line of the reply to an unknown command. -/
def unknownLine (name : Bytes) : Bytes := ascii "ERR unknown command '" ++ cstr name ++ [39]

theorem unknownText_eq (name : Bytes) : unknownText name = 45 :: (unknownLine name ++ crlf) := by
  rw [unknownText, unknownLine, List.append_assoc _ [39] crlf]
  rfl

theorem plain_unknownLine : ¬ crlf <:+: unknownLine name ↔ ¬ crlf <:+: cstr name := by
  constructor
  · intro plain inside
    refine plain (inside.trans ?_)
    rw [unknownLine, List.append_assoc]
    exact (List.prefix_append (cstr name) [39]).isInfix.trans (List.suffix_append _ _).isInfix
  · intro plain
    rw [unknownLine, List.append_assoc]
    exact plain_append (by decide) (plain_concat (by decide) plain)

/-- What a call reads beyond what was written. -/
theorem readBuffer_beyond {written : Bytes} {n : Nat} (long : written.length ≤ n)
    (stack : Nat → UInt8) : readBuffer stack written n =
      written ++ segment stack written.length (n - written.length) := by
  obtain ⟨more, rfl⟩ := Nat.exists_eq_add_of_le long
  rw [readBuffer, segment_add, segment_store_self, Nat.zero_add,
    segment_store_disjoint _ _ _ (Or.inr (Nat.zero_add _).le), Nat.add_sub_cancel_left]

/-- In zeroed memory, the bytes that are read for a long name end with a NUL, which ends no line. -/
theorem not_framed_overrun (fd : Nat) (long : 486 < (cstr name).length) :
    ¬ Framed ((unknownCall fd name).data fun _ => 0) := by
  have length := length_unknownText name
  have written : ((unknownText name).take 511 ++ [0]).length = 512 := by
    rw [List.length_append, List.length_take, List.length_singleton]
    omega
  have data : ((unknownCall fd name).data fun _ => 0) = 45 :: ((unknownLine name ++ crlf).take 510 ++
      List.replicate ((unknownText name).length - 512 + 1) 0) := by
    change readBuffer (fun _ => 0) (snprintf 512 (unknownText name)) (unknownText name).length = _
    rw [snprintf, if_neg (by decide), readBuffer_beyond (by rw [written]; omega), written,
      segment_const, List.append_assoc, List.singleton_append, ← List.replicate_succ, unknownText_eq]
    rfl
  intro framed
  rw [data] at framed
  obtain ⟨line, found⟩ := framed.error_line
  have ends := congrArg List.getLast? (cut_eq_append found)
  rw [List.getLast?_append, List.getLast?_replicate, if_neg (Nat.succ_ne_zero _), List.append_nil,
    List.getLast?_append] at ends
  cases ends

/-- **The reply to an unknown command is one value exactly if the name is short and has no line end**,
whatever the memory holds. -/
theorem unknownCall_framed_iff (fd : Nat) (name : Bytes) :
    (∀ stack, Framed ((unknownCall fd name).data stack)) ↔
      (cstr name).length ≤ 486 ∧ ¬ crlf <:+: cstr name := by
  have length := length_unknownText name
  by_cases short : (cstr name).length ≤ 486
  · have data : ∀ stack, (unknownCall fd name).data stack = unknownText name := fun stack => by
      refine readBuffer_of_front ?_ stack
      rw [unknownCall, snprintf_of_fits (by omega)]
      exact List.prefix_append _ _
    have lineLength : (unknownLine name).length + 3 = (unknownText name).length := by
      rw [unknownText_eq, List.length_cons, List.length_append]
      rfl
    simp only [data, unknownText_eq, forall_const]
    rw [framed_line_iff (by omega), plain_unknownLine]
    exact ⟨fun plain => ⟨short, plain⟩, fun both => both.2⟩
  · refine ⟨fun framed => ?_, fun both => absurd both.1 short⟩
    exact absurd (framed fun _ => 0) (not_framed_overrun fd (by omega))

end Unknown

/-! ### Channel names -/

section Subscribe

variable {channel : Bytes}

theorem cstr_eq_self_iff : cstr channel = channel ↔ 0 ∉ channel := by
  refine ⟨fun same member => ?_, cstr_eq_self⟩
  rw [← same] at member
  have nonzero := List.mem_takeWhile_imp (p := fun b : UInt8 => decide (b ≠ 0)) member
  exact absurd nonzero (by decide)

/-- What is printed: an array of the word, the announced length with the name, and an integer. -/
theorem subscribeText_eq (channel : Bytes) : subscribeText channel =
    42 :: (decimal 3 ++ crlf ++ (encode (.bulk (ascii "subscribe")) ++
      36 :: (decimal channel.length ++ crlf ++ (cstr channel ++ ascii "\r\n:1\r\n")))) := by
  simp only [subscribeText, encode, List.append_assoc, List.cons_append]
  rfl

/-- A name without a NUL is printed as it is. -/
theorem subscribeText_encode (noNul : 0 ∉ channel) : subscribeText channel =
    encode (.array [.bulk (ascii "subscribe"), .bulk channel, .integer 1]) := by
  rw [subscribeText_eq, cstr_eq_self noNul]
  simp only [encode, encodeAll, List.append_assoc, List.cons_append, List.append_nil]
  rfl

/-- A bulk string that is announced too long swallows what follows it, or does not end. -/
theorem decodeBulk_swallows {data : Bytes} {n : Nat} (longer : data.length < n) :
    decodeBulk n (data ++ ascii "\r\n:1\r\n") = .needMore ∨
      decodeBulk n (data ++ ascii "\r\n:1\r\n") = .error ∨
      ∃ value, decodeBulk n (data ++ ascii "\r\n:1\r\n") = .ok (value, []) := by
  have total : (data ++ ascii "\r\n:1\r\n").length = data.length + 6 := List.length_append
  unfold decodeBulk
  rw [if_neg (by omega), Int.toNat_natCast]
  by_cases short : (data ++ ascii "\r\n:1\r\n").length < n + 2
  · exact Or.inl (if_pos short)
  · rw [if_neg short]
    obtain ⟨d, rfl⟩ := Nat.exists_eq_add_of_le longer.le
    have few : d = 1 ∨ d = 2 ∨ d = 3 ∨ d = 4 := by omega
    rw [List.drop_append, List.drop_eq_nil_of_le (Nat.le_add_right _ _), List.nil_append,
      Nat.add_sub_cancel_left]
    rcases few with rfl | rfl | rfl | rfl
    · exact Or.inr (Or.inl (if_neg (by decide)))
    · exact Or.inr (Or.inl (if_neg (by decide)))
    · exact Or.inr (Or.inl (if_neg (by decide)))
    · rw [if_pos (by decide), List.drop_eq_nil_of_le (by omega)]
      exact Or.inr (Or.inr ⟨_, rfl⟩)

/-- **The reply to `SUBSCRIBE` is one value exactly if the name has no NUL.** -/
theorem framed_subscribeText_iff (named : channel.length ≤ 63) :
    Framed (subscribeText channel) ↔ 0 ∉ channel := by
  obtain ⟨-, short⟩ := length_subscribeText named
  constructor
  · intro framed nul
    have longer : (cstr channel).length < channel.length := by
      refine Nat.lt_of_le_of_ne (length_cstr channel) fun same => ?_
      exact cstr_eq_self_iff.mp ((List.takeWhile_prefix _).eq_of_length same) nul
    obtain ⟨value, decoded⟩ := framed.decode
    generalize tail_eq : 36 :: (decimal channel.length ++ crlf ++
      (cstr channel ++ ascii "\r\n:1\r\n")) = tail at *
    have text : subscribeText channel = 42 :: (decimal 3 ++ crlf ++
        (encode (.bulk (ascii "subscribe")) ++ tail)) := by
      rw [subscribeText_eq, tail_eq]
    obtain ⟨fuel, isFuel⟩ : ∃ fuel, (subscribeText channel).length = fuel + 1 :=
      Nat.exists_eq_add_one.mpr (by rw [text]; exact Nat.succ_pos _)
    -- the word is read, and then the name with its announced length
    have first : decodeAt (fuel + 1) (encode (.bulk (ascii "subscribe")) ++ tail) =
        some (.ok (.bulk (ascii "subscribe"), tail)) := by
      refine decodeAt_encode (fuel + 1) _ tail trivial (sized_of_length (by decide)) ?_
      rw [← isFuel, text]
      simp only [List.length_cons, List.length_append]
      omega
    have second : decodeAt (fuel + 1) tail =
        some (decodeBulk channel.length (cstr channel ++ ascii "\r\n:1\r\n")) := by
      rw [← tail_eq, decodeAt_bulk fuel (by omega)]
    rw [decode, isFuel, text, decodeAt_array (fuel + 1) (by decide), times_succ_ok 2 first] at decoded
    rcases decodeBulk_swallows longer with more | error | ⟨name, swallowed⟩
    · rw [times, second, more] at decoded
      cases decoded
    · rw [times, second, error] at decoded
      cases decoded
    · rw [swallowed] at second
      rw [times_succ_ok 1 second] at decoded
      cases decoded
  · intro noNul
    rw [subscribeText_encode noNul] at short ⊢
    exact framed_encode _ ⟨trivial, trivial, ⟨by decide, by decide⟩, trivial⟩ (by omega)

end Subscribe

/-! ### Ranges -/

section Ranges

variable {items : List Bytes}

/-- **A range that fits is one value.** -/
theorem framed_rangeText (noNul : ∀ item ∈ items, 0 ∉ item)
    (fits : (rangeText items).length < 8192) : Framed (rangeText items) := by
  have same : rangeText items = encode (.array (items.map .bulk)) := by
    rw [rangeText, flatten_bulkText_iff.mpr noNul, encode, List.length_map]
    rfl
  rw [same] at fits ⊢
  exact framed_encode _ (encodable_bulks items) (by omega)

theorem length_encodeAll_null : ∀ m, (encodeAll (List.replicate m .null)).length = 5 * m
  | 0 => rfl
  | m + 1 => by
    rw [List.replicate_succ, encodeAll, List.length_append, length_encodeAll_null m,
      show (encode .null).length = 5 from rfl]
    omega

theorem printedItems_of_fits (command : CommandName) (fits : (rangeText items).length < 8192) :
    printedItems command items = items := by
  cases command with
  | zrange => exact fittingItems_of_fits items _ fits
  | _ => exact if_pos fits

/-- **A range that does not fit is not**: the elements that were left out are announced. -/
theorem not_framed_fittingText {text : Bytes} (noNul : ∀ item ∈ printedItems .zrange items, 0 ∉ item)
    (few : items.length ≤ zedisBtreeMaxEntries) (full : 8192 ≤ (rangeText items).length)
    (printed : fittingText items 8192 = some text) : ¬ Framed text := by
  have short := (length_fittingText printed).2
  obtain ⟨header, isHeader, isText⟩ := Option.map_eq_some_iff.mp printed
  obtain ⟨-, same⟩ := Option.ite_none_left_eq_some.mp isHeader
  obtain rfl := Option.some.inj same
  have sub : (printedItems .zrange items).Sublist items := fittingItems_sublist bulkText _ _ _
  have folded := isText.symm.trans (foldl_fitting_items bulkText 8192 items (arrayHeader items.length))
  change text = arrayHeader items.length ++ ((printedItems .zrange items).map bulkText).flatten at folded
  generalize printedItems .zrange items = chosen at noNul sub folded
  have fewer : chosen.length < items.length := by
    refine Nat.lt_of_le_of_ne sub.length_le fun same => ?_
    rw [sub.eq_of_length same] at folded
    rw [rangeText, ← folded] at full
    omega
  rw [flatten_bulkText_iff.mpr noNul] at folded
  -- with a null for each element that was left out, the text is an encoding
  let values : List (RespValue Bytes) :=
    chosen.map .bulk ++ List.replicate (items.length - chosen.length) .null
  have length : values.length = items.length := by
    rw [List.length_append, List.length_map, List.length_replicate]
    omega
  have whole : encode (.array values) =
      text ++ encodeAll (List.replicate (items.length - chosen.length) .null) := by
    rw [encode, encodeAll_append, length, folded, arrayHeader]
    simp only [List.append_assoc, List.cons_append]
  have nulls := length_encodeAll_null (items.length - chosen.length)
  have encodable : Encodable (.array values) := by
    refine encodableAll_of_each fun value member => ?_
    rcases List.mem_append.mp member with bulk | null
    · exact (encodable_bulks chosen).each value bulk
    · rw [List.eq_of_mem_replicate null]
      trivial
  have small : (encode (.array values)).length < 2 ^ 63 := by
    rw [whole, List.length_append, nulls]
    unfold zedisBtreeMaxEntries at few
    omega
  refine not_framed_front encodable small (fun none => ?_) whole
  rw [none, List.length_nil] at nulls
  omega

end Ranges

/-! ### All replies -/

section All

variable {server : ZedisServer}

/-- The bytes of a call whose buffer starts with them. -/
theorem encodedCall_framed {fd size : Nat} {value : RespValue Bytes} (encodable : Encodable value)
    (small : (encode value).length < 2 ^ 63 - 1) (stack : Nat → UInt8) :
    Framed ((encodedCall fd size value).data stack) := by
  rw [encodedCall_data]
  exact framed_encode value encodable small

theorem requested_few (inv : ServerInv server) {elements : List (RespValue Bytes)} {items : List Bytes}
    (asked : requested server elements .zrange = some items) : items.length ≤ zedisBtreeMaxEntries := by
  obtain ⟨⟨key, start, stop⟩, -, rfl⟩ := Option.map_eq_some_iff.mp asked
  obtain ⟨⟨zindex, zinv⟩, -⟩ := inv.registries
  exact (length_slice_le _ start stop).trans (Registry.length_zsetItems zinv key)

/-- **The reply of a handler is one value exactly if its parts fit**, for printed elements without a
NUL. -/
theorem Reply.framed_iff (inv : ServerInv server) {fd : Nat} {elements : List (RespValue Bytes)}
    {command : CommandName} {own : List QueueCall} (reply : Reply server fd elements command own)
    (noNul : ∀ items, requested server elements command = some items →
      ∀ item ∈ printedItems command items, 0 ∉ item)
    (stack : Nat → UInt8) :
    (∀ call ∈ own, Framed (call.data stack)) ↔ Whole server elements command := by
  cases reply with
  | value size value encodable fits small _ whole =>
    rw [List.forall_mem_singleton]
    exact ⟨fun _ => whole, fun _ => encodedCall_framed encodable (by omega) stack⟩
  | unanswered quiet =>
    refine ⟨fun _ => ?_, fun _ => nofun⟩
    cases command with
    | ping => trivial
    | echo => trivial
    | get => trivial
    | _ => cases quiet
  | subscribed channel isSubscribe argument =>
    subst isSubscribe
    rw [List.forall_mem_singleton, data_of_front (List.prefix_append _ [0]) rfl,
      framed_subscribeText_iff (length_channelName channel)]
    refine ⟨fun noNul other has => ?_, fun whole => whole channel argument⟩
    cases argument.symm.trans has
    exact noNul
  | range items text asked printed fits =>
    rw [List.forall_mem_singleton, data_of_front List.prefix_rfl rfl]
    by_cases short : (rangeText items).length < 8192
    · rw [fittingText_of_fits short] at printed
      cases printed
      have noNul := noNul items asked
      rw [printedItems_of_fits command short] at noNul
      refine ⟨fun _ => ?_, fun _ => framed_rangeText noNul short⟩
      cases command with
      | zrange =>
        intro others asked'
        cases asked.symm.trans asked'
        exact short
      | subscribe => cases asked
      | _ => trivial
    · have isZrange : command = .zrange := by
        by_contra other
        exact short (fits other)
      subst isZrange
      refine ⟨fun framed => ?_, fun whole => absurd (whole items asked) short⟩
      exact absurd framed (not_framed_fittingText (noNul items asked) (requested_few inv asked)
        (Nat.not_lt.mp short) printed)
  | quit isQuit =>
    subst isQuit
    exact ⟨fun _ => trivial, fun _ => nofun⟩

/-- A state with other bytes below the handlers. -/
def withStack (server : ZedisServer) (stack : Nat → UInt8) : ZedisServer := { server with stack := stack }

/-- Every byte string queued on the requesting connection is one value, where the memory below the
handlers holds `stack`. -/
def FramedAt (server : ZedisServer) (fd : Nat) (cmd : RespValue Bytes) (stack : Nat → UInt8) : Prop :=
  ∃ rc after, serverHandleCommand server fd cmd = some (rc, after) ∧
    ∀ call ∈ callsSince server after, call.fd = fd → Framed (call.data stack)

/-- **Every byte string queued on the requesting connection is one value**, whatever the memory holds. -/
def AllFramed (server : ZedisServer) (fd : Nat) (cmd : RespValue Bytes) : Prop :=
  ∀ stack, FramedAt (withStack server stack) fd cmd stack

/-- The condition for one content of the memory. -/
structure UnsplitAt (server : ZedisServer) (fd : Nat) (cmd : RespValue Bytes) (stack : Nat → UInt8) :
    Prop where
  unknown : ∀ name, cmdBulk (elementsOf cmd) 0 = some name → findCommand name = none →
    Framed ((unknownCall fd name).data stack)
  whole : ∀ command, commandOf cmd = some command → Whole server (elementsOf cmd) command

theorem Handled.framed_iff (inv : ServerInv server) {fd : Nat} {cmd : RespValue Bytes}
    {pushes own : List QueueCall} (handled : Handled server fd cmd pushes own)
    (noNul : NulFree server cmd) (stack : Nat → UInt8) :
    (∀ call ∈ own, Framed (call.data stack)) ↔ UnsplitAt server fd cmd stack := by
  cases handled with
  | empty => exact ⟨fun _ => ⟨nofun, nofun⟩, fun _ => nofun⟩
  | format _ msg nonempty noName line =>
    rw [List.forall_mem_singleton]
    refine ⟨fun _ => ⟨fun name named => ?_, fun command named => ?_⟩, fun _ => ?_⟩
    · cases named.symm.trans noName
    · cases cmd with
      | array elements =>
        rw [commandOf, show cmdBulk elements 0 = none from noName] at named
        cases named
      | _ => cases named
    · have encodable : Encodable (.error msg) := line.plain
      refine encodedCall_framed encodable ?_ stack
      rw [encode, length_encode_line]
      exact line.2.trans (by decide)
  | unknown elements name named unfound =>
    rw [List.forall_mem_singleton]
    refine ⟨fun framed => ⟨fun other named' _ => ?_, fun command found => ?_⟩,
      fun unsplit => unsplit.unknown name named unfound⟩
    · cases named.symm.trans named'
      exact framed
    · cases (commandOf_of_unfound named unfound).symm.trans found
  | known elements command _ _ named pushed reply =>
    rw [reply.framed_iff inv (fun items asked => noNul command items named asked) stack]
    refine ⟨fun whole => ⟨fun name named' unfound => ?_, fun other named' => ?_⟩,
      fun unsplit => unsplit.whole command named⟩
    · cases (commandOf_of_unfound named' unfound).symm.trans named
    · cases named.symm.trans named'
      exact whole

/-- The calls of a command are framed if those of its reply are. -/
theorem framedAt_iff (inv : ServerInv server) {fd : Nat} {cmd : RespValue Bytes}
    (noNul : NulFree server cmd) (stack : Nat → UInt8) :
    FramedAt server fd cmd stack ↔ UnsplitAt server fd cmd stack := by
  obtain ⟨rc, after, pushes, own, ends, emits, handled⟩ := serverHandleCommand_handled inv fd cmd
  rw [FramedAt, ← handled.framed_iff inv noNul stack, exists_handled_iff ends, emits.callsSince]
  constructor
  · intro framed call member
    exact framed call (List.mem_append_right _ member) (handled.marked.2 call member).1
  · intro framed call member _
    rcases List.mem_append.mp member with push | replied
    · obtain ⟨_, value, encodable, small, rfl⟩ := handled.pushed call push
      have size : messageSize = 768 := rfl
      rw [data_of_front List.prefix_rfl rfl]
      exact framed_encode value encodable (by omega)
    · exact framed call replied

/-- A range that is answered with a text makes the call for it. -/
theorem range_sends (inv : ServerInv server) (fd : Nat) {elements : List (RespValue Bytes)}
    {command : CommandName} {text : Bytes} (printed : rangeReply server elements command = some text) :
    command.fn server fd elements =
      some (0, queueWrite server ⟨fd, 8192, text, text.length, false⟩) := by
  obtain ⟨items, asked, isText⟩ := Option.bind_eq_some_iff.mp printed
  cases command with
  | zrange =>
    obtain ⟨⟨key, start, stop⟩, args, rfl⟩ := Option.map_eq_some_iff.mp asked
    obtain ⟨other, runs, isOther⟩ := zrangeCommand_sends inv fd elements args
    cases isOther.symm.trans isText
    exact runs
  | lrange =>
    obtain ⟨⟨key, start, stop⟩, args, rfl⟩ := Option.map_eq_some_iff.mp asked
    obtain ⟨failed, runs, -⟩ := lrangeCommand_sends inv fd elements args
    dsimp only at isText
    rw [if_neg (by decide)] at isText
    rw [isText] at runs
    exact runs
  | _ => cases asked

/-- A range is framed if its text is. -/
theorem framedAt_range_iff (inv : ServerInv server) (fd : Nat) {cmd : RespValue Bytes}
    {command : CommandName} (named : commandOf cmd = some command) {text : Bytes}
    (printed : rangeReply server (elementsOf cmd) command = some text) (stack : Nat → UInt8) :
    FramedAt server fd cmd stack ↔ Framed text := by
  cases cmd with
  | array elements =>
    have runs := (serverHandleCommand_known fd named).trans (range_sends inv fd printed)
    rw [FramedAt, exists_handled_iff runs, callsSince_queueWrite, List.forall_mem_singleton,
      data_of_front List.prefix_rfl rfl]
    exact ⟨fun framed => framed rfl, fun framed _ => framed⟩
  | _ => cases named

/-- A range that prints a NUL is answered with a text. -/
theorem rangeReply_of_nul (inv : ServerInv server) {cmd : RespValue Bytes}
    (nul : ¬ NulFree server cmd) : ∃ command text, commandOf cmd = some command ∧
      rangeReply server (elementsOf cmd) command = some text := by
  simp only [NulFree, not_forall] at nul
  obtain ⟨command, items, named, asked, item, member, -⟩ := nul
  have isText : ∃ text,
      (if command = .zrange then fittingText items 8192 else formatted (rangeText items) 8192) =
        some text := by
    cases command with
    | zrange =>
      obtain ⟨⟨key, start, stop⟩, args, rfl⟩ := Option.map_eq_some_iff.mp asked
      obtain ⟨text, -, printed⟩ := zrangeCommand_sends inv 0 (elementsOf cmd) args
      exact ⟨text, printed⟩
    | lrange =>
      -- nothing is printed of a list that does not fit
      have short : (rangeText items).length < 8192 := by
        by_contra long
        change item ∈ (if (rangeText items).length < 8192 then items else []) at member
        rw [if_neg long] at member
        cases member
      exact ⟨_, (if_neg (by decide)).trans (if_neg (Nat.not_le.mpr short))⟩
    | _ => cases asked
  obtain ⟨text, printed⟩ := isText
  exact ⟨command, text, named, Option.bind_eq_some_iff.mpr ⟨items, asked, printed⟩⟩

end All

end Zedis.Server

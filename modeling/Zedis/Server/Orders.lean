/-
**Orders and the price that was sent.**

The price of a `BID`, an `ASK` or a `BOOK` is read as a 64-bit integer and then narrowed to an `int` by
`parse_int`, so the book is asked for the price modulo `2 ^ 32` (`parseInt_eq`). `orders_land_iff`: the
three commands mean the price that was sent exactly if the narrowed price has a level when and only when
the sent one is in the range. A price outside the range that narrows to one inside lands at a level that
was not sent (`order_lands_elsewhere`).
-/

import Zedis.OrderBook.Accounting
import Zedis.Server.Numbers
import Zedis.Server.Replies

namespace Zedis.Server

open Zedis.Lib Zedis.Resp Zedis.OrderBook

/-- The command for an order on a side. -/
def orderName : Side → CommandName
  | .bid => .bid
  | .ask => .ask

/-- An argument is a numeral of this 64-bit integer. -/
def ArgIs (cmd : RespValue Bytes) (index : Nat) (n : Int) : Prop :=
  IsInt64 n ∧ ∃ text, cmdBulk (elementsOf cmd) index = some text ∧ Numeral text n

/-- The command is an order. -/
structure IsOrder (cmd : RespValue Bytes) (side : Side) (price qty : Int) : Prop where
  command : commandOf cmd = some (orderName side)
  price : ArgIs cmd 1 price
  qty : ArgIs cmd 2 qty

/-- The command asks for a level. -/
structure IsBook (cmd : RespValue Bytes) (price : Int) : Prop where
  command : commandOf cmd = some .book
  price : ArgIs cmd 1 price

/-- The price is in the range of the book. -/
def InRange (book : ZedisOrderBook) (price : Int) : Prop :=
  book.priceMin ≤ price ∧ price ≤ book.priceMax

/-- **The command is refused**: it is answered with an error and leaves the book. -/
def RefusesPrice (server : ZedisServer) (fd : Nat) (cmd : RespValue Bytes) : Prop :=
  ∃ after, serverHandleCommand server fd cmd = some (0, after) ∧ after.book = server.book ∧
    callsSince server after = [encodedCall fd 512 (.error (ascii "ERR price out of range"))]

/-- **The order is placed at the price**: it is answered with its quantity, the price has a level, and
the side of this level changes and nothing else does. -/
def PlacedAt (server : ZedisServer) (fd : Nat) (cmd : RespValue Bytes) (side : Side) (price qty : Int) :
    Prop :=
  ∃ after, serverHandleCommand server fd cmd = some (0, after) ∧
    callsSince server after = [encodedCall fd 64 (.integer qty)] ∧
    (zedisBookLevel server.book price).isSome ∧
    ∀ other, zedisBookLevel after.book other =
      if other = price then (zedisBookLevel server.book price).map (addTo side qty)
      else zedisBookLevel server.book other

/-- **The level of the price is read**: the answer has its two quantities, and the book stays. -/
def ReadsLevel (server : ZedisServer) (fd : Nat) (cmd : RespValue Bytes) (price : Int) : Prop :=
  ∃ after level, serverHandleCommand server fd cmd = some (0, after) ∧ after.book = server.book ∧
    zedisBookLevel server.book price = some level ∧
    callsSince server after =
      [encodedCall fd 128 (.array [.integer (wrap64 level.bidQty), .integer (wrap64 level.askQty)])]

/-- The order lands where it was sent: at its price if that is in the range, and nowhere if not. -/
def LandsAt (server : ZedisServer) (fd : Nat) (cmd : RespValue Bytes) (side : Side) (price qty : Int) :
    Prop :=
  (InRange server.book price → PlacedAt server fd cmd side price qty) ∧
    (¬ InRange server.book price → RefusesPrice server fd cmd)

/-- The answer is about the price that was asked for. -/
def ReadsAt (server : ZedisServer) (fd : Nat) (cmd : RespValue Bytes) (price : Int) : Prop :=
  (InRange server.book price → ReadsLevel server fd cmd price) ∧
    (¬ InRange server.book price → RefusesPrice server fd cmd)

/-- **The narrowing is harmless**: an `int` price in the range has a level, and a price outside is not
narrowed to one that has. -/
def NarrowsSafely (book : ZedisOrderBook) (price : Int) : Prop :=
  (InRange book price → price - book.priceMin < 2 ^ 31) ∧
    (¬ InRange book price → ¬ HasLevel book (wrap32 price))

/-! ### What the commands do -/

section Commands

variable {server : ZedisServer} {fd : Nat} {cmd : RespValue Bytes} {side : Side} {price qty : Int}

theorem parseI64_numeral {text : Bytes} {n : Int} (int64 : IsInt64 n) (numeral : Numeral text n) :
    parseI64 text = some n := by
  rw [parseI64_eq, readInt_eq_some_iff]
  exact ⟨n, numeral, (wrap64_of_range int64.1 int64.2).symm⟩

/-- A price is read modulo `2 ^ 32`. -/
theorem parseInt_eq {text : Bytes} {n : Int} (int64 : IsInt64 n) (numeral : Numeral text n) :
    parseInt text = some (wrap32 n) := by
  rw [parseInt, parseI64_numeral int64 numeral, Option.map_some]

theorem line_priceOutOfRange : Line (ascii "ERR price out of range") := line_ofList (by decide)

/-- The handler of an order. -/
theorem order_runs (server : ZedisServer) (fd : Nat) (isOrder : IsOrder cmd side price qty) :
    serverHandleCommand server fd cmd = some ((place server.book side (wrap32 price) qty).elim
      (replyError server fd (ascii "ERR price out of range"))
      fun book => replyInteger { server with book := book } fd qty) := by
  obtain ⟨priceInt, priceStr, first, isPrice⟩ := isOrder.price
  obtain ⟨qtyInt, qtyStr, second, isQty⟩ := isOrder.qty
  have command := isOrder.command
  cases cmd with
  | array elements =>
    change cmdBulk elements 1 = some priceStr at first
    change cmdBulk elements 2 = some qtyStr at second
    rw [serverHandleCommand_known fd command]
    cases side with
    | bid =>
      simp only [orderName, CommandName.fn, bidCommand, orderCommand, first, second,
        parseInt_eq priceInt isPrice, parseI64_numeral qtyInt isQty, place]
      cases zedisBookBid server.book (wrap32 price) qty with
      | none => rfl
      | some book => rfl
    | ask =>
      simp only [orderName, CommandName.fn, askCommand, orderCommand, first, second,
        parseInt_eq priceInt isPrice, parseI64_numeral qtyInt isQty, place]
      cases zedisBookAsk server.book (wrap32 price) qty with
      | none => rfl
      | some book => rfl
  | _ => cases command

/-- **An order whose narrowed price has no level is refused.** -/
theorem order_refused (bounds : IntBounds server.book) (isOrder : IsOrder cmd side price qty)
    (none : ¬ HasLevel server.book (wrap32 price)) : RefusesPrice server fd cmd := by
  have runs := order_runs server fd isOrder
  rw [place_eq, changeLevel_eq bounds, if_neg none, Option.elim_none,
    replyError_eq line_priceOutOfRange] at runs
  exact ⟨_, runs, rfl, callsSince_queueWrite _ _⟩

/-- **Any other order changes the level of the narrowed price.** -/
theorem order_placed (bounds : IntBounds server.book) (fd : Nat) (isOrder : IsOrder cmd side price qty)
    (has : HasLevel server.book (wrap32 price)) : PlacedAt server fd cmd side (wrap32 price) qty := by
  have runs := order_runs server fd isOrder
  obtain ⟨book, placed⟩ : ∃ book, place server.book side (wrap32 price) qty = some book := by
    rw [place_eq, changeLevel_eq bounds, if_pos has]
    exact ⟨_, rfl⟩
  rw [placed, Option.elim_some, replyInteger_eq, wrap64_of_range isOrder.qty.1.1 isOrder.qty.1.2] at runs
  refine ⟨_, runs, callsSince_queueWrite _ _, ?_, fun other => ?_⟩
  · rw [zedisBookLevel_eq bounds, if_pos has]
    rfl
  · exact zedisBookLevel_place bounds placed other

/-- The handler of a `BOOK`. -/
theorem book_runs (server : ZedisServer) (fd : Nat) (isBook : IsBook cmd price) :
    serverHandleCommand server fd cmd = some ((zedisBookLevel server.book (wrap32 price)).elim
      (replyError server fd (ascii "ERR price out of range"))
      fun level => sendPrinted server fd 128 (bookText (wrap64 level.bidQty) (wrap64 level.askQty))) := by
  obtain ⟨priceInt, priceStr, first, isPrice⟩ := isBook.price
  have command := isBook.command
  cases cmd with
  | array elements =>
    change cmdBulk elements 1 = some priceStr at first
    rw [serverHandleCommand_known fd command]
    simp only [CommandName.fn, bookCommand, first, parseInt_eq priceInt isPrice]
    cases zedisBookLevel server.book (wrap32 price) with
    | none => rfl
    | some level => rfl
  | _ => cases command

theorem book_refused (bounds : IntBounds server.book) (isBook : IsBook cmd price)
    (none : ¬ HasLevel server.book (wrap32 price)) : RefusesPrice server fd cmd := by
  have runs := book_runs server fd isBook
  rw [zedisBookLevel_eq bounds, if_neg none, Option.elim_none, replyError_eq line_priceOutOfRange] at runs
  exact ⟨_, runs, rfl, callsSince_queueWrite _ _⟩

theorem sendPrinted_bookText (server : ZedisServer) (fd : Nat) (bid ask : Int) :
    sendPrinted server fd 128 (bookText (wrap64 bid) (wrap64 ask)) = (0, queueWrite server
      (encodedCall fd 128 (.array [.integer (wrap64 bid), .integer (wrap64 ask)]))) := by
  rw [bookText_eq]
  exact sendPrinted_fits (length_encode_pos _) (length_encode_book (wrap64_range bid) (wrap64_range ask))

theorem book_read (bounds : IntBounds server.book) (isBook : IsBook cmd price)
    (has : HasLevel server.book (wrap32 price)) : ReadsLevel server fd cmd (wrap32 price) := by
  have runs := book_runs server fd isBook
  have level := zedisBookLevel_eq bounds (wrap32 price)
  rw [if_pos has] at level
  rw [level, Option.elim_some, sendPrinted_bookText] at runs
  exact ⟨_, _, runs, rfl, level, callsSince_queueWrite _ _⟩

/-- A refused command sends an error, and nothing of another size. -/
theorem RefusesPrice.not_sent (refuses : RefusesPrice server fd cmd) {after : ZedisServer} {size : Nat}
    {value : RespValue Bytes} (runs : serverHandleCommand server fd cmd = some (0, after))
    (sent : callsSince server after = [encodedCall fd size value]) : size = 512 := by
  obtain ⟨after', runs', -, calls⟩ := refuses
  cases runs.symm.trans runs'
  exact congrArg QueueCall.size (List.singleton_inj.mp (sent.symm.trans calls))

theorem PlacedAt.not_refused {price : Int} (placed : PlacedAt server fd cmd side price qty) :
    ¬ RefusesPrice server fd cmd := by
  obtain ⟨after, runs, sent, -⟩ := placed
  exact fun refuses => absurd (refuses.not_sent runs sent) (by decide)

theorem ReadsLevel.not_refused {price : Int} (reads : ReadsLevel server fd cmd price) :
    ¬ RefusesPrice server fd cmd := by
  obtain ⟨after, level, runs, -, -, sent⟩ := reads
  exact fun refuses => absurd (refuses.not_sent runs sent) (by decide)

/-- A price in the range is an `int`. -/
theorem wrap32_of_inRange (bounds : IntBounds server.book) (inside : InRange server.book price) :
    wrap32 price = price := by
  have low := bounds.low
  have high := bounds.high
  obtain ⟨above, below⟩ := inside
  exact Int.bmod_eq_of_le (by omega) (by omega)

theorem hasLevel_of_isSome (bounds : IntBounds server.book)
    (reported : (zedisBookLevel server.book price).isSome) : HasLevel server.book price := by
  by_contra none
  rw [zedisBookLevel_eq bounds, if_neg none] at reported
  cases reported

/-- The law for one command: `Good` is what it should do for a price in the range, and what it does if
the narrowed price has a level. -/
theorem meets_iff_narrowsSafely (bounds : IntBounds server.book) (Good : Int → Prop)
    (refused : ¬ HasLevel server.book (wrap32 price) → RefusesPrice server fd cmd)
    (done : HasLevel server.book (wrap32 price) → Good (wrap32 price))
    (leveled : ∀ price, Good price → HasLevel server.book price)
    (apart : ∀ price, Good price → ¬ RefusesPrice server fd cmd) :
    (InRange server.book price → Good price) ∧
        (¬ InRange server.book price → RefusesPrice server fd cmd) ↔
      NarrowsSafely server.book price := by
  by_cases inside : InRange server.book price
  · rw [wrap32_of_inRange bounds inside] at done
    constructor
    · intro law
      exact ⟨fun _ => (leveled price (law.1 inside)).2.2, fun outside => absurd inside outside⟩
    · intro safe
      exact ⟨fun _ => done ⟨inside.1, inside.2, safe.1 inside⟩, fun outside => absurd inside outside⟩
  · constructor
    · intro law
      exact ⟨fun inRange => absurd inRange inside, fun _ has => apart _ (done has) (law.2 inside)⟩
    · intro safe
      exact ⟨fun inRange => absurd inRange inside, fun _ => refused (safe.2 inside)⟩

end Commands

/-- **Orders land at the price that was sent, and `BOOK` reads it, exactly if the narrowing is
harmless.** -/
theorem orders_land_iff (server : ZedisServer) (bounds : IntBounds server.book) (fd : Nat) (price : Int) :
    (∀ side qty cmd, IsOrder cmd side price qty →
        (LandsAt server fd cmd side price qty ↔ NarrowsSafely server.book price)) ∧
      ∀ cmd, IsBook cmd price → (ReadsAt server fd cmd price ↔ NarrowsSafely server.book price) := by
  constructor
  · intro side qty cmd isOrder
    refine meets_iff_narrowsSafely bounds (fun price => PlacedAt server fd cmd side price qty)
      (order_refused bounds isOrder) (order_placed bounds fd isOrder) ?_ fun _ placed => placed.not_refused
    rintro price ⟨after, -, -, reported, -⟩
    exact hasLevel_of_isSome bounds reported
  · intro cmd isBook
    refine meets_iff_narrowsSafely bounds (fun price => ReadsLevel server fd cmd price)
      (book_refused bounds isBook) (book_read bounds isBook) ?_ fun _ reads => reads.not_refused
    rintro price ⟨after, level, -, -, reported, -⟩
    exact hasLevel_of_isSome bounds (by rw [reported]; rfl)

/-- `BID price 7`. -/
def sampleBid (price : Bytes) : RespValue Bytes := bulks [ascii "BID", price, ascii "7"]

theorem isOrder_sampleBid {text : Bytes} {price : Int} (int64 : IsInt64 price)
    (numeral : Numeral text price) : IsOrder (sampleBid text) .bid price 7 where
  command := by
    have found : findCommand (ascii "BID") = some .bid := by decide
    exact found
  price := ⟨int64, text, rfl, numeral⟩
  qty := ⟨⟨by decide, by decide⟩, ascii "7", rfl, .plain (by decide) (by decide +kernel)⟩

/-- **A bid at `2 ^ 32 + 1` lands at the price `1`**, in a book of the prices `0` and `1`. -/
theorem order_lands_elsewhere : ∃ server, Reachable server ∧ idle server 5 = true ∧
    IntBounds server.book ∧ ¬ InRange server.book (2 ^ 32 + 1) ∧
    IsOrder (sampleBid (ascii "4294967297")) .bid (2 ^ 32 + 1) 7 ∧
    PlacedAt server 5 (sampleBid (ascii "4294967297")) .bid 1 7 ∧
    ¬ LandsAt server 5 (sampleBid (ascii "4294967297")) .bid (2 ^ 32 + 1) 7 := by
  have shown : (sampleServer [sampleClient []]).map
      (fun server => (idle server 5, server.book.priceMin, server.book.priceMax)) =
        some (true, 0, 1) := by decide +kernel
  obtain ⟨server, -, reach, seen⟩ := exists_sampleServer shown
  obtain ⟨isIdle, rest⟩ := Prod.mk.inj seen
  obtain ⟨isMin, isMax⟩ := Prod.mk.inj rest
  have bounds : IntBounds server.book := ⟨by rw [isMin]; decide, by rw [isMax]; decide⟩
  have outside : ¬ InRange server.book (2 ^ 32 + 1) := by
    rw [InRange, isMin, isMax]
    decide
  have isOrder : IsOrder (sampleBid (ascii "4294967297")) .bid (2 ^ 32 + 1) 7 :=
    isOrder_sampleBid ⟨by decide, by decide⟩ (.plain (by decide) (by decide +kernel))
  have has : HasLevel server.book (wrap32 (2 ^ 32 + 1)) := by
    rw [HasLevel, isMin, isMax]
    decide
  have placed := order_placed bounds 5 isOrder has
  refine ⟨server, reach, isIdle, bounds, outside, isOrder, placed, fun lands => ?_⟩
  exact placed.not_refused (lands.2 outside)

/-- A bid at the price `1` and a look at it. -/
theorem orders_land_iff_inside : ∃ server, IntBounds server.book ∧ NarrowsSafely server.book 1 ∧
    LandsAt server 5 (sampleBid (ascii "1")) .bid 1 7 := by
  have shown : (sampleServer [sampleClient []]).map
      (fun server => (server.book.priceMin, server.book.priceMax)) = some (0, 1) := by decide +kernel
  obtain ⟨server, -, -, seen⟩ := exists_sampleServer shown
  obtain ⟨isMin, isMax⟩ := Prod.mk.inj seen
  have bounds : IntBounds server.book := ⟨by rw [isMin]; decide, by rw [isMax]; decide⟩
  have safe : NarrowsSafely server.book 1 := by
    rw [NarrowsSafely, InRange, HasLevel, isMin, isMax]
    decide
  have isOrder : IsOrder (sampleBid (ascii "1")) .bid 1 7 :=
    isOrder_sampleBid ⟨by decide, by decide⟩ (.plain (by decide) (by decide +kernel))
  exact ⟨server, bounds, safe, ((orders_land_iff server bounds 5 1).1 .bid 7 _ isOrder).mpr safe⟩

end Zedis.Server

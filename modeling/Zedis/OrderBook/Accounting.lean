/-
**Accounting of the order book.**

A price has a level (`HasLevel`) if it is in the range of the book and its offset from `price_min` is an
`int`; different prices have different levels, so an order changes one side of one level and nothing else
(`zedisBookLevel_place`). Over a run from `zedis_book_init`, each level should hold the fold of
`q, d ↦ max 0 (q + d)` over the quantities of its orders (`Balanced`). A sum beyond `INT64_MAX` wraps
around to a negative number and is taken for an over-cancellation, which clears the level
(`overflow_clears_level`). `balanced_throughout_iff`: nothing else breaks the law.
-/

import Zedis.Lib.Run
import Zedis.OrderBook.Model
import Mathlib.Tactic

namespace Zedis.OrderBook

open Zedis.Lib Zedis.Arena Zedis.Resp

/-- The bounds of a book are `int`s. -/
structure IntBounds (book : ZedisOrderBook) : Prop where
  low : -2 ^ 31 ≤ book.priceMin
  high : book.priceMax < 2 ^ 31

/-- **The price has a level**: it is in the range, and its offset is an `int`. -/
def HasLevel (book : ZedisOrderBook) (price : Int) : Prop :=
  book.priceMin ≤ price ∧ price ≤ book.priceMax ∧ price - book.priceMin < 2 ^ 31

instance (book : ZedisOrderBook) (price : Int) : Decidable (HasLevel book price) :=
  inferInstanceAs (Decidable (_ ∧ _ ∧ _))

/-- The place of the level of a price. -/
def levelIndex (book : ZedisOrderBook) (price : Int) : Nat := (price - book.priceMin).toNat

/-! ### Levels -/

section Levels

variable {book next : ZedisOrderBook} {price : Int} {change : PriceLevel → PriceLevel}

theorem wrap32_offset {n : Int} (low : 0 ≤ n) (high : n < 2 ^ 32) :
    wrap32 n = if n < 2 ^ 31 then n else n - 2 ^ 32 := by
  unfold wrap32
  rw [Int.bmod_def]
  omega

theorem priceToIndex_of_level (has : HasLevel book price) :
    priceToIndex book price = levelIndex book price := by
  obtain ⟨low, high, near⟩ := has
  rw [priceToIndex, if_neg (by omega), wrap32_offset (by omega) (by omega), if_pos near, levelIndex]
  omega

theorem priceToIndex_of_none (bounds : IntBounds book) (none : ¬ HasLevel book price) :
    priceToIndex book price < 0 := by
  have low := bounds.low
  have high := bounds.high
  unfold HasLevel at none
  unfold priceToIndex
  by_cases outside : price < book.priceMin ∨ price > book.priceMax
  · rw [if_pos outside]
    decide
  · rw [if_neg outside, wrap32_offset (by omega) (by omega), if_neg (by omega)]
    omega

/-- Different prices have different levels. -/
theorem levelIndex_inj {price' : Int} (has : HasLevel book price) (has' : HasLevel book price')
    (same : levelIndex book price = levelIndex book price') : price = price' := by
  have low := has.1
  have low' := has'.1
  unfold levelIndex at same
  omega

/-- `zedis_book_level` returns the level of the price. -/
theorem zedisBookLevel_eq (bounds : IntBounds book) (price : Int) : zedisBookLevel book price =
    if HasLevel book price then some (book.levels (levelIndex book price)) else none := by
  unfold zedisBookLevel
  by_cases has : HasLevel book price
  · simp only [priceToIndex_of_level has, Int.toNat_natCast]
    rw [if_neg (by omega), if_pos has]
  · simp only [if_pos (priceToIndex_of_none bounds has), if_neg has]

/-- An order changes the level of its price. -/
theorem changeLevel_eq (bounds : IntBounds book) (price : Int) (change : PriceLevel → PriceLevel) :
    changeLevel book price change =
      if HasLevel book price then
        some { book with
          levels := Function.update book.levels (levelIndex book price)
            (change (book.levels (levelIndex book price))) }
      else none := by
  unfold changeLevel
  by_cases has : HasLevel book price
  · simp only [priceToIndex_of_level has, Int.toNat_natCast]
    rw [if_neg (by omega), if_pos has]
  · simp only [if_pos (priceToIndex_of_none bounds has), if_neg has]

theorem changeLevel_eq_some (bounds : IntBounds book)
    (changed : changeLevel book price change = some next) :
    HasLevel book price ∧ next = { book with
      levels := Function.update book.levels (levelIndex book price)
        (change (book.levels (levelIndex book price))) } := by
  rw [changeLevel_eq bounds] at changed
  obtain ⟨has, same⟩ := Option.ite_none_right_eq_some.mp changed
  exact ⟨has, (Option.some.inj same).symm⟩

/-- **A change of one level is seen at its price only.** -/
theorem zedisBookLevel_change (bounds : IntBounds book)
    (changed : changeLevel book price change = some next) (other : Int) : zedisBookLevel next other =
      if other = price then (zedisBookLevel book price).map change else zedisBookLevel book other := by
  obtain ⟨has, rfl⟩ := changeLevel_eq_some bounds changed
  have boundsNext : IntBounds { book with
      levels := Function.update book.levels (levelIndex book price)
        (change (book.levels (levelIndex book price))) } := ⟨bounds.low, bounds.high⟩
  rw [zedisBookLevel_eq boundsNext, zedisBookLevel_eq bounds, zedisBookLevel_eq bounds]
  by_cases same : other = price
  · subst same
    rw [if_pos rfl, if_pos has, Option.map_some]
    refine (if_pos has).trans (congrArg some ?_)
    exact Function.update_self _ _ _
  · rw [if_neg same]
    by_cases hasOther : HasLevel book other
    · rw [if_pos hasOther]
      refine (if_pos hasOther).trans (congrArg some ?_)
      exact Function.update_of_ne (fun index => same (levelIndex_inj hasOther has index)) _ _
    · rw [if_neg hasOther]
      exact if_neg hasOther

end Levels

/-! ### Orders -/

/-- A side of the book. -/
inductive Side
  | bid
  | ask
deriving DecidableEq, Repr

/-- The quantity on a side of a level. -/
def quantity : Side → PriceLevel → Int
  | .bid, level => level.bidQty
  | .ask, level => level.askQty

/-- The change of a level by an order. -/
def addTo (side : Side) (qty : Int) (level : PriceLevel) : PriceLevel :=
  match side with
  | .bid => { level with bidQty := addQty level.bidQty qty }
  | .ask => { level with askQty := addQty level.askQty qty }

/-- The call for an order on a side. -/
def place (book : ZedisOrderBook) : Side → Int → Int → Option ZedisOrderBook
  | .bid => zedisBookBid book
  | .ask => zedisBookAsk book

theorem place_eq (book : ZedisOrderBook) (side : Side) (price qty : Int) :
    place book side price qty = changeLevel book price (addTo side qty) := by
  cases side with
  | bid => rfl
  | ask => rfl

@[simp] theorem quantity_addTo_self (side : Side) (qty : Int) (level : PriceLevel) :
    quantity side (addTo side qty level) = addQty (quantity side level) qty := by
  cases side with
  | bid => rfl
  | ask => rfl

theorem quantity_addTo_of_ne {side other : Side} (differ : other ≠ side) (qty : Int) (level : PriceLevel) :
    quantity other (addTo side qty level) = quantity other level := by
  cases side with
  | bid =>
    cases other with
    | bid => exact absurd rfl differ
    | ask => rfl
  | ask =>
    cases other with
    | bid => rfl
    | ask => exact absurd rfl differ

/-- **What an order leaves**: its side of the level of its price is changed, and no other quantity. -/
theorem zedisBookLevel_place {book next : ZedisOrderBook} (bounds : IntBounds book) {side : Side}
    {price qty : Int} (placed : place book side price qty = some next) (other : Int) :
    zedisBookLevel next other =
      if other = price then (zedisBookLevel book price).map (addTo side qty)
      else zedisBookLevel book other := by
  rw [place_eq] at placed
  exact zedisBookLevel_change bounds placed other

/-! ### Quantities -/

/-- A sum of 64-bit quantities is exact if it does not overflow. -/
theorem addQty_eq_max_iff {old qty : Int} (nonneg : 0 ≤ old) (small : old < 2 ^ 63)
    (low : -2 ^ 63 ≤ qty) (high : qty < 2 ^ 63) :
    addQty old qty = max 0 (old + qty) ↔ old + qty < 2 ^ 63 := by
  have wraps : wrap64 (old + qty) = if old + qty < 2 ^ 63 then old + qty else old + qty - 2 ^ 64 := by
    unfold wrap64
    rw [Int.bmod_def]
    omega
  unfold addQty
  by_cases fits : old + qty < 2 ^ 63
  · simp only [wraps, if_pos fits]
    omega
  · simp only [wraps, if_neg fits]
    omega

theorem addQty_range (old qty : Int) : 0 ≤ addQty old qty ∧ addQty old qty < 2 ^ 63 := by
  have high : wrap64 (old + qty) < 2 ^ 63 := Int.bmod_lt (x := old + qty) (m := 2 ^ 64) (by decide)
  by_cases negative : wrap64 (old + qty) < 0
  · simp only [addQty, if_pos negative]
    decide
  · simp only [addQty, if_neg negative]
    exact ⟨Int.not_lt.mp negative, high⟩

/-- The quantity that a level should hold after these changes. -/
def balance (changes : List Int) : Int := changes.foldl (fun q d => max 0 (q + d)) 0

@[simp] theorem balance_nil : balance [] = 0 := rfl

@[simp] theorem balance_concat (changes : List Int) (d : Int) :
    balance (changes ++ [d]) = max 0 (balance changes + d) := by
  rw [balance, List.foldl_concat, ← balance]

/-! ### Runs -/

/-- A call of `zedis_book_bid` or `zedis_book_ask`; the quantity is an `int64_t`. -/
structure Order where
  side : Side
  price : Int
  qty : Int
  low : -2 ^ 63 ≤ qty
  high : qty < 2 ^ 63

/-- The book a call leaves; one that returns `-1` leaves it as it was. -/
def bookStep (book : ZedisOrderBook) (order : Order) : Option ZedisOrderBook :=
  some ((place book order.side order.price order.qty).getD book)

/-- The quantities of the orders on a side at a price, oldest first. -/
def ordersAt (orders : List Order) (side : Side) (price : Int) : List Int :=
  (orders.filter fun order => order.side = side ∧ order.price = price).map Order.qty

/-- **The levels hold the balances of their orders.** -/
def Balanced (orders : List Order) (book : ZedisOrderBook) : Prop :=
  ∀ side price level, zedisBookLevel book price = some level →
    quantity side level = balance (ordersAt orders side price)

/-- The sum that the call makes is at most `INT64_MAX`. -/
def NoOverflow (book : ZedisOrderBook) (order : Order) : Prop :=
  ∀ level, zedisBookLevel book order.price = some level → quantity order.side level + order.qty < 2 ^ 63

instance (book : ZedisOrderBook) (order : Order) : Decidable (NoOverflow book order) :=
  decidable_of_iff ((zedisBookLevel book order.price).all fun level =>
    decide (quantity order.side level + order.qty < 2 ^ 63)) (by
      simp only [Option.all_eq_true, decide_eq_true_eq, NoOverflow])

/-- **The invariant of a book.** -/
structure BookInv (book : ZedisOrderBook) : Prop where
  bounds : IntBounds book
  nonneg : ∀ side price level, zedisBookLevel book price = some level → 0 ≤ quantity side level
  small : ∀ side price level, zedisBookLevel book price = some level → quantity side level < 2 ^ 63

section Runs

variable {book next : ZedisOrderBook} {order : Order} {past : List Order}

theorem ordersAt_concat_self (past : List Order) (order : Order) :
    ordersAt (past ++ [order]) order.side order.price =
      ordersAt past order.side order.price ++ [order.qty] := by
  simp [ordersAt]

theorem ordersAt_concat_of_ne {side : Side} {price : Int}
    (differ : ¬ (order.side = side ∧ order.price = price)) :
    ordersAt (past ++ [order]) side price = ordersAt past side price := by
  simp [ordersAt, List.filter_append, differ]

/-- What a call leaves, seen at every price. -/
theorem bookStep_level (bounds : IntBounds book) (taken : bookStep book order = some next) (price : Int) :
    zedisBookLevel next price =
      if price = order.price then (zedisBookLevel book price).map (addTo order.side order.qty)
      else zedisBookLevel book price := by
  obtain rfl := Option.some.inj taken
  cases placed : place book order.side order.price order.qty with
  | some after =>
    rw [Option.getD_some, zedisBookLevel_place bounds placed]
    by_cases same : price = order.price
    · rw [if_pos same, if_pos same, same]
    · rw [if_neg same, if_neg same]
  | none =>
    rw [Option.getD_none]
    by_cases same : price = order.price
    · have refused : zedisBookLevel book price = none := by
        rw [place_eq, changeLevel_eq bounds] at placed
        rw [same, zedisBookLevel_eq bounds]
        split at placed
        · cases placed
        · rename_i none
          exact if_neg none
      rw [if_pos same, refused, Option.map_none]
    · rw [if_neg same]

/-- A level after a call is the level before it, changed if it is the addressed one. -/
theorem bookStep_eq_some (bounds : IntBounds book) (taken : bookStep book order = some next)
    {price : Int} {level : PriceLevel} (reported : zedisBookLevel next price = some level) :
    ∃ old, zedisBookLevel book price = some old ∧
      level = if price = order.price then addTo order.side order.qty old else old := by
  rw [bookStep_level bounds taken] at reported
  by_cases same : price = order.price
  · rw [if_pos same] at reported
    obtain ⟨old, was, rfl⟩ := Option.map_eq_some_iff.mp reported
    exact ⟨old, was, (if_pos same).symm⟩
  · rw [if_neg same] at reported
    exact ⟨level, reported, (if_neg same).symm⟩

/-- The quantities after a call. -/
theorem bookStep_quantity (bounds : IntBounds book) (taken : bookStep book order = some next)
    {price : Int} {level : PriceLevel} (reported : zedisBookLevel next price = some level) (side : Side) :
    ∃ old, zedisBookLevel book price = some old ∧
      (order.side = side ∧ order.price = price ∧
          quantity side level = addQty (quantity side old) order.qty ∨
        ¬ (order.side = side ∧ order.price = price) ∧ quantity side level = quantity side old) := by
  obtain ⟨old, was, rfl⟩ := bookStep_eq_some bounds taken reported
  refine ⟨old, was, ?_⟩
  by_cases same : price = order.price
  · rw [if_pos same]
    by_cases sameSide : side = order.side
    · rw [sameSide]
      exact Or.inl ⟨rfl, same.symm, quantity_addTo_self _ _ _⟩
    · exact Or.inr ⟨fun both => sameSide both.1.symm, quantity_addTo_of_ne sameSide _ _⟩
  · rw [if_neg same]
    exact Or.inr ⟨fun both => same both.2.symm, rfl⟩

theorem BookInv.step (inv : BookInv book) (taken : bookStep book order = some next) : BookInv next := by
  have bounds : IntBounds next := by
    obtain rfl := Option.some.inj taken
    cases placed : place book order.side order.price order.qty with
    | none => exact inv.bounds
    | some after =>
      rw [place_eq] at placed
      obtain ⟨-, rfl⟩ := changeLevel_eq_some inv.bounds placed
      exact ⟨inv.bounds.low, inv.bounds.high⟩
  have range : ∀ side price level, zedisBookLevel next price = some level →
      0 ≤ quantity side level ∧ quantity side level < 2 ^ 63 := by
    intro side price level reported
    obtain ⟨old, was, ⟨-, -, changed⟩ | ⟨-, kept⟩⟩ :=
      bookStep_quantity inv.bounds taken reported side
    · rw [changed]
      exact addQty_range _ _
    · rw [kept]
      exact ⟨inv.nonneg side price old was, inv.small side price old was⟩
  exact ⟨bounds, fun side price level reported => (range side price level reported).1,
    fun side price level reported => (range side price level reported).2⟩

/-- **A call keeps the books balanced exactly if its sum does not overflow.** -/
theorem Balanced.step_iff (inv : BookInv book) (balanced : Balanced past book)
    (taken : bookStep book order = some next) :
    Balanced (past ++ [order]) next ↔ NoOverflow book order := by
  have exactly : ∀ old, zedisBookLevel book order.price = some old →
      (addQty (quantity order.side old) order.qty =
          balance (ordersAt (past ++ [order]) order.side order.price) ↔
        quantity order.side old + order.qty < 2 ^ 63) := by
    intro old was
    rw [ordersAt_concat_self, balance_concat, ← balanced order.side order.price old was]
    exact addQty_eq_max_iff (inv.nonneg _ _ old was) (inv.small _ _ old was) order.low order.high
  constructor
  · intro balancedNext old was
    refine (exactly old was).mp ?_
    rw [← quantity_addTo_self]
    refine balancedNext order.side order.price _ ?_
    rw [bookStep_level inv.bounds taken, if_pos rfl, was, Option.map_some]
  · intro fits side price level reported
    obtain ⟨old, was, ⟨rfl, rfl, changed⟩ | ⟨differ, kept⟩⟩ :=
      bookStep_quantity inv.bounds taken reported side
    · rw [changed]
      exact (exactly old was).mpr (fits old was)
    · rw [kept, ordersAt_concat_of_ne differ]
      exact balanced side price old was

/-- An order of a positive quantity does not lower a level, unless its sum overflows. -/
theorem bookStep_rises (inv : BookInv book) (fits : NoOverflow book order) (positive : 0 < order.qty)
    (taken : bookStep book order = some next) {price : Int} {old level : PriceLevel}
    (was : zedisBookLevel book price = some old) (reported : zedisBookLevel next price = some level)
    (side : Side) : quantity side old ≤ quantity side level := by
  obtain ⟨old', was', ⟨rfl, rfl, changed⟩ | ⟨-, kept⟩⟩ := bookStep_quantity inv.bounds taken reported side
  · cases was.symm.trans was'
    have nonneg := inv.nonneg order.side order.price old was
    have sum := (addQty_eq_max_iff nonneg (inv.small _ _ old was) order.low order.high).mpr (fits old was)
    rw [changed, sum]
    omega
  · cases was.symm.trans was'
    exact kept.ge

end Runs

/-- What `zedis_book_init` leaves. -/
theorem zedisBookInit_eq {arena arena' : ZedisArena} {priceMin priceMax : Int} {book : ZedisOrderBook}
    (made : zedisBookInit arena priceMin priceMax = some (book, arena')) :
    book.priceMin = priceMin ∧ book.priceMax = priceMax ∧ book.levels = fun _ => ⟨0, 0⟩ := by
  unfold zedisBookInit at made
  obtain ⟨-, made⟩ := Option.ite_none_left_eq_some.mp made
  obtain ⟨granted, -, same⟩ := Option.map_eq_some_iff.mp made
  cases same
  exact ⟨rfl, rfl, rfl⟩

theorem zedisBookInit_empty {arena arena' : ZedisArena} {priceMin priceMax : Int} {book : ZedisOrderBook}
    (low : -2 ^ 31 ≤ priceMin) (high : priceMax < 2 ^ 31)
    (made : zedisBookInit arena priceMin priceMax = some (book, arena')) :
    IntBounds book ∧ ∀ side price level, zedisBookLevel book price = some level →
      quantity side level = 0 := by
  obtain ⟨isMin, isMax, empty⟩ := zedisBookInit_eq made
  have bounds : IntBounds book := ⟨by rw [isMin]; exact low, by rw [isMax]; exact high⟩
  refine ⟨bounds, fun side price level reported => ?_⟩
  rw [zedisBookLevel_eq bounds, empty] at reported
  obtain ⟨-, same⟩ := Option.ite_none_right_eq_some.mp reported
  obtain rfl := Option.some.inj same
  cases side with
  | bid => rfl
  | ask => rfl

/-- **The accounting is exact throughout exactly the runs whose sums do not overflow**, and in these an
order of a positive quantity lowers no level. -/
theorem balanced_throughout_iff {arena arena' : ZedisArena} {priceMin priceMax : Int}
    (low : -2 ^ 31 ≤ priceMin) (high : priceMax < 2 ^ 31) {start last : ZedisOrderBook}
    {orders : List Order} (made : zedisBookInit arena priceMin priceMax = some (start, arena'))
    (run : Run bookStep Always start orders last) :
    ((∀ n middle, Run bookStep Always start (orders.take n) middle → Balanced (orders.take n) middle) ↔
      Run bookStep NoOverflow start orders last) ∧
      ∀ order next, NoOverflow last order → 0 < order.qty → bookStep last order = some next →
        ∀ side price old level, zedisBookLevel last price = some old →
          zedisBookLevel next price = some level → quantity side old ≤ quantity side level := by
  obtain ⟨bounds, empty⟩ := zedisBookInit_empty low high made
  have inv : BookInv start := by
    refine ⟨bounds, fun side price level reported => ?_, fun side price level reported => ?_⟩
    · rw [empty side price level reported]
    · rw [empty side price level reported]
      decide
  refine ⟨?_, ?_⟩
  · exact run.throughout_history_iff (fun _ => BookInv) Balanced
      (fun _ _ _ _ inv _ taken => inv.step taken)
      (fun _ _ _ _ inv balanced taken => balanced.step_iff inv taken) [] inv empty
  · have invLast := run.invariant BookInv (fun _ _ _ inv _ taken => inv.step taken) inv
    intro order next fits positive taken side price old level was reported
    exact bookStep_rises invLast fits positive taken was reported side

/-- An order of `qty` at the price `0`. -/
def bidAtZero (qty : Int) (low : -2 ^ 63 ≤ qty) (high : qty < 2 ^ 63) : Order :=
  ⟨.bid, 0, qty, low, high⟩

/-- A bid of `INT64_MAX` and one of `1`. -/
def overflowing : List Order :=
  [bidAtZero (2 ^ 63 - 1) (by decide) (by decide), bidAtZero 1 (by decide) (by decide)]

/-- **A bid of one more than `INT64_MAX` in all clears the level.** -/
theorem overflow_clears_level : ∃ start arena' last,
    zedisBookInit ⟨4096, 0⟩ (-1) 1 = some (start, arena') ∧ Run bookStep Always start overflowing last ∧
      zedisBookLevel last 0 = some ⟨0, 0⟩ ∧ balance (ordersAt overflowing .bid 0) = 2 ^ 63 ∧
      ¬ Balanced overflowing last := by
  have seen : ((zedisBookInit ⟨4096, 0⟩ (-1) 1).bind fun made =>
      (replay bookStep made.1 overflowing).bind fun last => zedisBookLevel last 0) = some ⟨0, 0⟩ := by
    decide +kernel
  obtain ⟨⟨start, arena'⟩, made, seen⟩ := Option.bind_eq_some_iff.mp seen
  obtain ⟨last, returned, level⟩ := Option.bind_eq_some_iff.mp seen
  have sum : balance (ordersAt overflowing .bid 0) = 2 ^ 63 := by decide +kernel
  refine ⟨start, arena', last, made, Run.of_replay (fun _ _ _ => trivial) returned, level, sum, ?_⟩
  intro balanced
  have zero : (0 : Int) = 2 ^ 63 := (balanced .bid 0 _ level).trans sum
  exact absurd zero (by decide)

/-- A bid of `7`, and a cancellation of more than there is. -/
def cancelling : List Order :=
  [bidAtZero 7 (by decide) (by decide), bidAtZero (-9) (by decide) (by decide)]

/-- The cancellation leaves an empty level, as the accounting says. -/
theorem balanced_throughout_iff_cancel : ∃ start arena' last,
    zedisBookInit ⟨4096, 0⟩ (-1) 1 = some (start, arena') ∧
      Run bookStep Always start cancelling last ∧ Run bookStep NoOverflow start cancelling last ∧
      Balanced cancelling last := by
  obtain ⟨last, returned⟩ := Option.isSome_iff_exists.mp
    (show ((zedisBookInit ⟨4096, 0⟩ (-1) 1).bind fun made => replay (fun book order =>
      if NoOverflow book order then bookStep book order else none) made.1 cancelling).isSome by decide +kernel)
  obtain ⟨⟨start, arena'⟩, made, returned⟩ := Option.bind_eq_some_iff.mp returned
  have fits : Run bookStep NoOverflow start cancelling last := Run.of_guarded returned
  have run : Run bookStep Always start cancelling last := fits.mono fun _ _ _ => trivial
  have law := balanced_throughout_iff (by decide) (by decide) made run
  exact ⟨start, arena', last, made, run, fits, law.1.mpr fits 2 last run⟩

end Zedis.OrderBook

/-
**The order book (`src/order_book.c`, `include/order_book.h`).**

One level of bid and ask quantities for each price from `price_min` to `price_max`. Prices are 32-bit
and quantities 64-bit integers; sums wrap around.
-/

import Zedis.Arena.Regions
import Zedis.Resp.Model
import Mathlib.Logic.Function.Basic

namespace Zedis.OrderBook

open Zedis.Arena Zedis.Resp

/-- The `int` a result wraps around to. -/
def wrap32 (n : Int) : Int := n.bmod (2 ^ 32)

/-- `price_level_t`. -/
structure PriceLevel where
  bidQty : Int
  askQty : Int
deriving DecidableEq, Repr

/-- `sizeof(price_level_t)`. -/
def priceLevelSize : Nat := 16

/-- `zedis_order_book_t`. -/
structure ZedisOrderBook where
  levels : Nat → PriceLevel
  priceMin : Int
  priceMax : Int
  numLevels : Nat

/-- `price_to_index`. -/
def priceToIndex (book : ZedisOrderBook) (price : Int) : Int :=
  if price < book.priceMin ∨ price > book.priceMax then -1 else wrap32 (price - book.priceMin)

/-- `zedis_book_init`: `none` is the return value `-1`. The number of levels is computed in `int` and
converted to `size_t`. -/
def zedisBookInit (arena : ZedisArena) (priceMin priceMax : Int) :
    Option (ZedisOrderBook × ZedisArena) :=
  if priceMax < priceMin then none
  else
    let num := (wrap32 (wrap32 (priceMax - priceMin) + 1) % sizeMod).toNat
    (zedisArenaCalloc arena num priceLevelSize 64).map fun (_, arena) =>
      (⟨fun _ => ⟨0, 0⟩, priceMin, priceMax, num⟩, arena)

/-- The sum of a quantity and a change, not below zero. -/
def addQty (old qty : Int) : Int :=
  let sum := wrap64 (old + qty)
  if sum < 0 then 0 else sum

/-- The code of `zedis_book_bid` and of `zedis_book_ask`, for the change they make to the level. -/
def changeLevel (book : ZedisOrderBook) (price : Int) (change : PriceLevel → PriceLevel) :
    Option ZedisOrderBook :=
  let idx := priceToIndex book price
  if idx < 0 then none
  else some { book with
    levels := Function.update book.levels idx.toNat (change (book.levels idx.toNat)) }

/-- `zedis_book_bid`: `none` is the return value `-1`. -/
def zedisBookBid (book : ZedisOrderBook) (price qty : Int) : Option ZedisOrderBook :=
  changeLevel book price fun level => { level with bidQty := addQty level.bidQty qty }

/-- `zedis_book_ask`: `none` is the return value `-1`. -/
def zedisBookAsk (book : ZedisOrderBook) (price qty : Int) : Option ZedisOrderBook :=
  changeLevel book price fun level => { level with askQty := addQty level.askQty qty }

/-- `zedis_book_level`: `none` is the return value `-1`. -/
def zedisBookLevel (book : ZedisOrderBook) (price : Int) : Option PriceLevel :=
  let idx := priceToIndex book price
  if idx < 0 then none else some (book.levels idx.toNat)

end Zedis.OrderBook

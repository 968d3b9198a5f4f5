/-
**The nodes of the RESP parser (`src/resp_nodes.c`, and their use in `src/resp_decode.c` and
`src/resp_scan.c`).**

The elements of an array are nodes, linked by `next` and `prev`; a nested array hangs at a node by
`child_head` and `child_tail`. A node that is no longer used goes to the parser's list of free nodes,
from which the next one is taken.

`parseValueNodes` is `parse_value` with the nodes; `parseValue` of `Zedis.Resp.Model` is the same
function with the elements of an array as a list.

* A node is known by a number. What the slab or `malloc` grants is a node that the parser has not had
  before; the `n`-th request is granted if `malloc n`.
* A failed call leaves `*out` as it was, which is zeroed, so it is not part of the verdict.
-/

import Mathlib.Logic.Function.Basic
import Zedis.Resp.Model

namespace Zedis.Resp

open Zedis.Lib

/-- `resp_type_t`. -/
inductive RespType
  | incomplete
  | simple
  | error
  | integer
  | bulk
  | null
  | array
deriving DecidableEq, Repr

/-- `resp_node_t`. -/
structure RespNode where
  next : Option Nat
  prev : Option Nat
  type : RespType
  integer : Int
  bulk : Slice
  childHead : Option Nat
  childTail : Option Nat
  childCount : Nat
deriving DecidableEq, Repr

/-- `resp_value_t`. -/
structure RespValueT where
  type : RespType
  integer : Int
  bulk : Slice
  arrayHead : Option Nat
  arrayTail : Option Nat
  arrayCount : Nat
deriving DecidableEq, Repr

/-- The nodes, the first free one, and how often the slab or `malloc` was asked for one. -/
structure NodePool where
  mem : Nat → RespNode
  freeList : Option Nat
  asked : Nat

/-- The list that `resp__node_append` works on. -/
structure NodeList where
  head : Option Nat
  tail : Option Nat
  count : Nat
deriving DecidableEq, Repr

/-- A node after `memset`. -/
def zeroNode : RespNode := ⟨none, none, .incomplete, 0, ⟨0, 0⟩, none, none, 0⟩

/-- The list with no nodes. -/
def noNodes : NodeList := ⟨none, none, 0⟩

/-- A node is written. -/
def NodePool.write (pool : NodePool) (node : Nat) (contents : RespNode) : NodePool :=
  { pool with mem := Function.update pool.mem node contents }

@[simp]
theorem mem_write_self (pool : NodePool) (node : Nat) (contents : RespNode) :
    (pool.write node contents).mem node = contents := Function.update_self _ _ _

theorem mem_write_of_ne (pool : NodePool) {node other : Nat} (contents : RespNode)
    (apart : other ≠ node) : (pool.write node contents).mem other = pool.mem other :=
  Function.update_of_ne apart _ _

/-! ### Nodes -/

section Nodes

variable (malloc : Nat → Bool)

/-- `resp__node_alloc`. -/
def respNodeAlloc (pool : NodePool) : Option Nat × NodePool :=
  match pool.freeList with
  | some node => (some node, { pool with freeList := (pool.mem node).next }.write node zeroNode)
  | none =>
    let node := pool.asked
    let pool := { pool with asked := pool.asked + 1 }
    if malloc node then (some node, pool.write node zeroNode) else (none, pool)

/-- `resp__node_free`. -/
def respNodeFree (pool : NodePool) (node : Nat) : NodePool :=
  { pool.write node { pool.mem node with next := pool.freeList, prev := none } with
    freeList := some node }

/-- The release of the nodes that hang at a node. -/
def releaseChildren (release : NodePool → Option Nat → Option NodePool) (pool : NodePool) (head : Nat) :
    Option NodePool :=
  match (pool.mem head).childHead with
  | none => some pool
  | some child => (release pool (some child)).map fun pool =>
      pool.write head { pool.mem head with childHead := none }

/-- `resp__node_list_release`, with a bound on its depth. -/
def releaseLoop : Nat → NodePool → Option Nat → Option NodePool
  | 0, _, _ => none
  | _ + 1, pool, none => some pool
  | fuel + 1, pool, some head =>
    let next := (pool.mem head).next
    (releaseChildren (releaseLoop fuel) pool head).bind fun pool =>
      releaseLoop fuel (respNodeFree pool head) next

/-- `resp__node_list_release`. -/
def respNodeListRelease (pool : NodePool) (head : Option Nat) : Option NodePool :=
  releaseLoop (pool.asked + 1) pool head

/-- `resp__node_append`. -/
def respNodeAppend (list : NodeList) (pool : NodePool) (node : Nat) : NodeList × NodePool :=
  let pool := pool.write node { pool.mem node with next := none, prev := list.tail }
  match list.tail with
  | some tail => (⟨list.head, some node, list.count + 1⟩,
      pool.write tail { pool.mem tail with next := some node })
  | none => (⟨some node, some node, list.count + 1⟩, pool)

/-! ### Decoding -/

/-- The list of nodes is released, and the call fails. -/
def failWith {α : Type} (status : Verdict α) (pool : NodePool) (list : NodeList) :
    Option (Verdict α × NodePool) :=
  (respNodeListRelease pool list.head).map fun pool => (status, pool)

/-- What `parse_value` stores in `*out` for a value without elements. -/
def outOf : RespValue Slice → RespValueT
  | .simple text => ⟨.simple, 0, text, none, none, 0⟩
  | .error text => ⟨.error, 0, text, none, none, 0⟩
  | .integer value => ⟨.integer, value, ⟨0, 0⟩, none, none, 0⟩
  | .bulk data => ⟨.bulk, 0, data, none, none, 0⟩
  | .null => ⟨.null, 0, ⟨0, 0⟩, none, none, 0⟩
  | .array _ => ⟨.incomplete, 0, ⟨0, 0⟩, none, none, 0⟩

/-- What it stores for an array. -/
def arrayOut (list : NodeList) : RespValueT := ⟨.array, 0, ⟨0, 0⟩, list.head, list.tail, list.count⟩

/-- The token loop of `resp__parse_inline`. -/
def inlineLoop (buf : Nat → UInt8) (lineEnd : Nat) :
    Nat → Nat → NodeList → NodePool → Option (Verdict NodeList × NodePool)
  | 0, _, _, _ => none
  | fuel + 1, i, list, pool =>
    if i < lineEnd then
      let tok := skipWhile buf isBlank lineEnd i
      if tok ≥ lineEnd then some (.ok list, pool)
      else
        let stop := skipWhile buf (fun b => !isBlank b) lineEnd tok
        match respNodeAlloc malloc pool with
        | (none, pool) => failWith .error pool list
        | (some node, pool) =>
          let pool := pool.write node
            { pool.mem node with type := .bulk, bulk := ⟨tok, stop - tok⟩ }
          let (list, pool) := respNodeAppend list pool node
          inlineLoop buf lineEnd fuel stop list pool
    else some (.ok list, pool)

/-- `resp__parse_inline`. -/
def parseInlineNodes (p : RespParser) (start : Nat) (pool : NodePool) :
    Option (Verdict (RespValueT × Nat) × NodePool) :=
  match (List.range' start (p.wPos - start)).find? fun i => p.buf i == 10 with
  | none => some (.needMore, pool)
  | some lf =>
    let lineEnd := if lf > start ∧ p.buf (lf - 1) = 13 then lf - 1 else lf
    (inlineLoop malloc p.buf lineEnd (p.wPos + 1) start noNodes pool).map fun (verdict, pool) =>
      (verdict.map fun list => (arrayOut list, lf + 1), pool)

/-- The copy of a nested value to its node. -/
def fillNode (node : RespNode) (nested : RespValueT) : RespNode :=
  let node := { node with type := nested.type, integer := nested.integer, bulk := nested.bulk }
  if nested.type = .array then
    { node with
      childHead := nested.arrayHead, childTail := nested.arrayTail, childCount := nested.arrayCount }
  else node

/-- The loop of `parse_array`, for some more elements. -/
def arrayLoop (parse : Nat → NodePool → Option (Verdict (RespValueT × Nat) × NodePool)) :
    Nat → Nat → NodeList → NodePool → Option (Verdict (NodeList × Nat) × NodePool)
  | 0, pos, list, pool => some (.ok (list, pos), pool)
  | n + 1, pos, list, pool =>
    match respNodeAlloc malloc pool with
    | (none, pool) => failWith .error pool list
    | (some child, pool) =>
      (parse pos pool).bind fun (verdict, pool) =>
        match verdict with
        | .needMore => failWith .needMore (respNodeFree pool child) list
        | .error => failWith .error (respNodeFree pool child) list
        | .ok (nested, pos) =>
          let pool := pool.write child (fillNode (pool.mem child) nested)
          let (list, pool) := respNodeAppend list pool child
          arrayLoop parse n pos list pool

/-- `parse_array`. -/
def parseArrayNodes (parse : Nat → NodePool → Option (Verdict (RespValueT × Nat) × NodePool))
    (count : Int) (pos : Nat) (pool : NodePool) : Option (Verdict (RespValueT × Nat) × NodePool) :=
  (arrayLoop malloc parse count.toNat pos noNodes pool).map fun (verdict, pool) =>
    (verdict.map fun (list, pos) => (arrayOut list, pos), pool)

/-- `parse_value`. -/
def parseValueNodes (p : RespParser) :
    Nat → Nat → NodePool → Option (Verdict (RespValueT × Nat) × NodePool)
  | 0, _, _ => none
  | fuel + 1, pos, pool =>
    if pos ≥ p.wPos then some (.needMore, pool)
    else
      let typeByte := p.buf pos
      let lineStart := pos + 1
      if isTypeByte typeByte = false then parseInlineNodes malloc p pos pool
      else
        match respFindCrlf p lineStart with
        | none => some (.needMore, pool)
        | some crlf =>
          if typeByte = 43 then
            some (.ok (outOf (.simple ⟨lineStart, crlf - lineStart⟩), crlf + 2), pool)
          else if typeByte = 45 then
            some (.ok (outOf (.error ⟨lineStart, crlf - lineStart⟩), crlf + 2), pool)
          else
            match respParseInt p.buf lineStart crlf with
            | none => some (.error, pool)
            | some value =>
              if typeByte = 58 then some (.ok (outOf (.integer value), crlf + 2), pool)
              else if typeByte = 36 then
                some ((parseBulk p crlf value).map fun (value, pos) => (outOf value, pos), pool)
              else if value < 0 then some (.ok (outOf .null, crlf + 2), pool)
              else parseArrayNodes malloc (parseValueNodes p fuel) value (crlf + 2) pool

/-- `resp_parser_next`: the verdict with `*out`, the parser and its nodes. -/
def nextNodes (p : RespParser) (pool : NodePool) :
    Option (Verdict RespValueT × RespParser × NodePool) :=
  let p := if p.rPos > p.bufCap / 2 then respCompact p else p
  (parseValueNodes malloc p (p.wPos + 1) p.rPos pool).map fun (verdict, pool) =>
    match verdict with
    | .ok (out, pos) => (.ok out, { p with rPos := pos }, pool)
    | .needMore => (.needMore, p, pool)
    | .error => (.error, p, pool)

end Nodes

/-! ### The parsed command -/

/-- `resp_value_release`: the nodes after it. -/
def respValueRelease (pool : NodePool) (value : RespValueT) : Option NodePool :=
  if value.type = .array ∧ value.arrayHead.isSome then respNodeListRelease pool value.arrayHead
  else some pool

/-- A value that is not an array, as its fields say. -/
def scalarOf (buf : Nat → UInt8) (type : RespType) (integer : Int) (bulk : Slice) : RespValue Bytes :=
  match type with
  | .simple => .simple (readSlice buf bulk)
  | .error => .error (readSlice buf bulk)
  | .integer => .integer integer
  | .bulk => .bulk (readSlice buf bulk)
  | _ => .null

/-- The values from a node on by `next`, with a bound on their number and depth. -/
def readNodes (mem : Nat → RespNode) (buf : Nat → UInt8) :
    Nat → Option Nat → Option (List (RespValue Bytes))
  | 0, _ => none
  | _ + 1, none => some []
  | fuel + 1, some node =>
    let contents := mem node
    (if contents.type = .array then (readNodes mem buf fuel contents.childHead).map .array
      else some (scalarOf buf contents.type contents.integer contents.bulk)).bind fun value =>
        (readNodes mem buf fuel contents.next).map fun values => value :: values

/-- The command at `*out`, as the handlers read it. -/
def readValue (pool : NodePool) (buf : Nat → UInt8) (out : RespValueT) : Option (RespValue Bytes) :=
  if out.type = .array then (readNodes pool.mem buf (pool.asked + 1) out.arrayHead).map .array
  else some (scalarOf buf out.type out.integer out.bulk)

end Zedis.Resp

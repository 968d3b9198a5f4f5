/-
**The RESP parser (`src/resp_decode.c`, `src/resp_scan.c`, `src/resp_buf.c`, `include/resp.h`).**

The parser owns a buffer; `buf[r_pos..w_pos)` are the unread bytes. `resp_parser_feed` appends to
them, `resp_parser_next` takes one value off their front. Strings in a value are slices of the buffer,
not copies; they are read (`RespValue.contents`) before the next call.

The elements of an array are a list here; the nodes that hold them, and the list of free ones, are in
`Zedis.Resp.Nodes`. Nodes are never refused. The recursion of `parse_value` is modelled with a
bound on its depth; `none` is a recursion that has not returned within it.
-/

import Zedis.Arena.Regions
import Zedis.Lib.Bytes
import Zedis.Lib.Cut
import Zedis.Lib.Incremental
import Mathlib.Algebra.Group.Int.Defs

namespace Zedis.Resp

open Zedis.Lib Zedis.Arena

/-- `resp_parse_status_t`. -/
inductive RespParseStatus
  | needMore
  | ok
  | error
deriving DecidableEq, Repr

/-- A slice of the buffer: `bulk` and `bulk_len`. -/
structure Slice where
  start : Nat
  len : Nat
deriving DecidableEq, Repr

/-- A parsed value, with its strings as `β`. The list of an array is the list of its nodes in the order
of `next`. -/
inductive RespValue (β : Type)
  | simple (text : β)
  | error (text : β)
  | integer (value : Int)
  | bulk (data : β)
  | null
  | array (elements : List (RespValue β))
deriving Repr

mutual

/-- The value with its strings read. -/
def RespValue.map {β γ : Type} (read : β → γ) : RespValue β → RespValue γ
  | .simple text => .simple (read text)
  | .error text => .error (read text)
  | .integer value => .integer value
  | .bulk data => .bulk (read data)
  | .null => .null
  | .array elements => .array (RespValue.mapAll read elements)

def RespValue.mapAll {β γ : Type} (read : β → γ) : List (RespValue β) → List (RespValue γ)
  | [] => []
  | value :: values => value.map read :: RespValue.mapAll read values

end

/-- `resp_parser_t`, less its nodes. -/
structure RespParser where
  buf : Nat → UInt8
  bufCap : Nat
  rPos : Nat
  wPos : Nat

/-- The bytes of a slice. -/
def readSlice (buf : Nat → UInt8) (slice : Slice) : Bytes := segment buf slice.start slice.len

/-- The value with the bytes its slices point to. -/
def RespValue.contents (buf : Nat → UInt8) (value : RespValue Slice) : RespValue Bytes :=
  value.map (readSlice buf)

/-! ### Scanning -/

/-- `resp__find_crlf`: `none` is the return value `-1`. -/
def respFindCrlf (p : RespParser) (start : Nat) : Option Nat :=
  (List.range' start (p.wPos - 1 - start)).find? fun i => p.buf i == 13 && p.buf (i + 1) == 10

/-- The `int64_t` a result wraps around to. -/
def wrap64 (n : Int) : Int := n.bmod (2 ^ 64)

/-- The loop body of `resp__parse_int`. -/
def digitStep (value : Int) (b : UInt8) : Option Int :=
  if isDigit b then some (wrap64 (value * 10 + (b.toNat - 48))) else none

/-- `resp__parse_int`: `none` is the return value `-1`. -/
def respParseInt (buf : Nat → UInt8) (start stop : Nat) : Option Int :=
  if start ≥ stop then none
  else
    let neg := buf start == 45
    let i := if neg then start + 1 else start
    if i ≥ stop ∨ isDigit (buf i) = false then none
    else ((segment buf i (stop - i)).foldlM digitStep 0).map fun value =>
      if neg then wrap64 (-value) else value

/-- A space or a tab. -/
def isBlank (b : UInt8) : Bool := b == 32 || b == 9

/-- The loop `while (i < stop && test(buf[i])) i++`. -/
def skipWhile (buf : Nat → UInt8) (test : UInt8 → Bool) (stop i : Nat) : Nat :=
  i + ((segment buf i (stop - i)).takeWhile test).length

/-- The token loop of `resp__parse_inline`. -/
def inlineTokens (buf : Nat → UInt8) (lineEnd : Nat) : Nat → Nat → Option (List Slice)
  | 0, _ => none
  | fuel + 1, i =>
    if i < lineEnd then
      let tok := skipWhile buf isBlank lineEnd i
      if tok ≥ lineEnd then some []
      else
        let stop := skipWhile buf (fun b => !isBlank b) lineEnd tok
        (inlineTokens buf lineEnd fuel stop).map fun slices => ⟨tok, stop - tok⟩ :: slices
    else some []

/-- `resp__parse_inline`: the value and the position after it. -/
def respParseInline (p : RespParser) (start : Nat) : Option (Verdict (RespValue Slice × Nat)) :=
  match (List.range' start (p.wPos - start)).find? fun i => p.buf i == 10 with
  | none => some .needMore
  | some lf =>
    let lineEnd := if lf > start ∧ p.buf (lf - 1) = 13 then lf - 1 else lf
    (inlineTokens p.buf lineEnd (p.wPos + 1) start).map fun slices =>
      .ok (.array (slices.map .bulk), lf + 1)

/-! ### Decoding -/

/-- The bytes that start a value of the protocol: `+`, `-`, `:`, `$` and `*`. -/
def isTypeByte (b : UInt8) : Bool := b == 43 || b == 45 || b == 58 || b == 36 || b == 42

/-- `parse_array`. -/
def parseArray (parse : Nat → Option (Verdict (RespValue Slice × Nat))) (count : Int) (pos : Nat) :
    Option (Verdict (RespValue Slice × Nat)) :=
  (times parse count.toNat pos).map (Verdict.map fun result => (.array result.1, result.2))

/-- The case `$` of `parse_value`, for the number in the line that ends at `crlf`. -/
def parseBulk (p : RespParser) (crlf : Nat) (bulkLen : Int) : Verdict (RespValue Slice × Nat) :=
  if bulkLen < 0 then .ok (.null, crlf + 2)
  else
    let dataStart := crlf + 2
    let dataEnd := (dataStart + bulkLen.toNat) % sizeMod
    if (dataEnd + 2) % sizeMod > p.wPos then .needMore
    else if p.buf dataEnd ≠ 13 ∨ p.buf (dataEnd + 1) ≠ 10 then .error
    else .ok (.bulk ⟨dataStart, bulkLen.toNat⟩, (dataEnd + 2) % sizeMod)

/-- `parse_value`: the value and the position after it. -/
def parseValue (p : RespParser) : Nat → Nat → Option (Verdict (RespValue Slice × Nat))
  | 0, _ => none
  | fuel + 1, pos =>
    if pos ≥ p.wPos then some .needMore
    else
      let typeByte := p.buf pos
      let lineStart := pos + 1
      if isTypeByte typeByte = false then respParseInline p pos
      else
        match respFindCrlf p lineStart with
        | none => some .needMore
        | some crlf =>
          if typeByte = 43 then some (.ok (.simple ⟨lineStart, crlf - lineStart⟩, crlf + 2))
          else if typeByte = 45 then some (.ok (.error ⟨lineStart, crlf - lineStart⟩, crlf + 2))
          else
            match respParseInt p.buf lineStart crlf with
            | none => some .error
            | some value =>
              if typeByte = 58 then some (.ok (.integer value, crlf + 2))
              else if typeByte = 36 then some (parseBulk p crlf value)
              else if value < 0 then some (.ok (.null, crlf + 2))
              else parseArray (parseValue p fuel) value (crlf + 2)

/-! ### The buffer -/

/-- `resp_parser_init_ex`: `malloc` gives the contents of a new buffer, or `none`. -/
def respParserInitEx (malloc : Nat → Option (Nat → UInt8)) (bufCap : Nat) : Option RespParser :=
  let bufCap := if bufCap = 0 then 64 * 1024 else bufCap
  (malloc bufCap).map fun buf => ⟨buf, bufCap, 0, 0⟩

/-- `resp__compact`. -/
def respCompact (p : RespParser) : RespParser :=
  if p.rPos = 0 then p
  else
    let unread := p.wPos - p.rPos
    { p with buf := store p.buf 0 (segment p.buf p.rPos unread), wPos := unread, rPos := 0 }

/-- The copy of `resp_parser_feed` to the end of the unread bytes. -/
def appendBytes (p : RespParser) (data : Bytes) : RespParser :=
  { p with buf := store p.buf p.wPos data, wPos := p.wPos + data.length }

/-- `resp_parser_feed`: `none` is the return value `-1`. The data are an object in memory, so its
length added to a position in the buffer does not wrap around. -/
def respParserFeed (p : RespParser) (data : Bytes) : Option RespParser :=
  if data.length = 0 then some p
  else if p.wPos + data.length ≤ p.bufCap then some (appendBytes p data)
  else if p.bufCap - (p.wPos - p.rPos) < data.length then none
  else some (appendBytes (respCompact p) data)

/-- `resp_parser_next`: the verdict with the value, and the parser. -/
def respParserNext (p : RespParser) : Option (Verdict (RespValue Slice) × RespParser) :=
  let p := if p.rPos > p.bufCap / 2 then respCompact p else p
  (parseValue p (p.wPos + 1) p.rPos).map fun verdict =>
    match verdict with
    | .ok (value, pos) => (.ok value, { p with rPos := pos })
    | .needMore => (.needMore, p)
    | .error => (.error, p)

/-! ### A reader -/

/-- `resp_parser_next` until it stops returning `RESP_OK`: the values, read when they are returned, the
last status and the parser. -/
def drain : Nat → RespParser → Option (List (RespValue Bytes) × RespParseStatus × RespParser)
  | 0, _ => none
  | fuel + 1, p =>
    (respParserNext p).bind fun (verdict, p) =>
      match verdict with
      | .needMore => some ([], .needMore, p)
      | .error => some ([], .error, p)
      | .ok value => (drain fuel p).map fun (values, last) => (value.contents p.buf :: values, last)

/-- The chunks fed one after the other, each followed by a `drain`, up to the first `RESP_ERROR`: the
values and the last status; `some none` if a chunk is refused. -/
def readChunks : RespParser → List Bytes → Option (Option (List (RespValue Bytes) × RespParseStatus))
  | _, [] => some (some ([], .needMore))
  | p, chunk :: chunks =>
    match respParserFeed p chunk with
    | none => some none
    | some p =>
      (drain (p.wPos + 1) p).bind fun (values, status, p) =>
        if status = .error then some (some (values, .error))
        else (readChunks p chunks).map (Option.map fun (more, last) => (values ++ more, last))

end Zedis.Resp

/-
**The append-only log of list elements (`src/append_log.c`, `include/append_log.h`).**

All lists share one mapped region. A push appends a record, that is a packed header (offset of the
list's previous record, length of the key, length of the value), the key and the value; the list keeps
the offset of its newest and of its oldest record and a count, each in 32 bits. `zedis_aol_lrange`
follows the `prev_off` chain, at most 1024 records of it.
-/

import Zedis.Arena.Regions
import Zedis.Lib.Bytes
import Zedis.Lib.Memory
import Zedis.Resp.Format

namespace Zedis.AppendLog

open Zedis.Lib Zedis.Arena Zedis.Reply

/-- `ZEDIS_AOL_MAX_ELEM`. -/
def zedisAolMaxElem : Nat := 512

/-- `ZEDIS_AOL_MAX_KEY`. -/
def zedisAolMaxKey : Nat := 256

/-- `UINT32_MAX + 1`. -/
def offMod : Nat := 2 ^ 32

/-- `ZEDIS_AOL_NO_PREV`. -/
def zedisAolNoPrev : Nat := 2 ^ 32 - 1

/-- `sizeof(aol_hdr_t)`. -/
def aolHdrSize : Nat := 8

/-- `list_meta_t`. -/
structure ListMeta where
  headOff : Nat
  tailOff : Nat
  count : Nat
deriving DecidableEq, Repr

/-- A list without elements. -/
def emptyList : ListMeta := ⟨zedisAolNoPrev, zedisAolNoPrev, 0⟩

/-- `zedis_append_log_t`, less the file behind it. -/
structure ZedisAppendLog where
  base : Nat → UInt8
  capacity : Nat
  writePos : Nat

/-- `zedis_aol_init`: `mapped` is what `mmap` returns, `none` for `MAP_FAILED`. -/
def zedisAolInit (mapped : Option (Nat → UInt8)) (capacity : Nat) : Option ZedisAppendLog :=
  if capacity < 4096 then none else mapped.map fun base => ⟨base, capacity, 0⟩

/-- `record_size`. -/
def recordSize (keyLen valLen : Nat) : Nat := aolHdrSize + keyLen + valLen

/-- The region with a record at `pos`: the fields of its header, its key and its value. -/
def writeRecord (base : Nat → UInt8) (pos prevOff : Nat) (key val : Bytes) : Nat → UInt8 :=
  let base := store base pos (leBytes 4 prevOff)
  let base := store base (pos + 4) (leBytes 2 key.length)
  let base := store base (pos + 6) (leBytes 2 val.length)
  let payload := pos + aolHdrSize
  let base := store base payload key
  store base (payload + key.length) val

/-- `zedis_aol_lpush`: the return value, the log and the list. -/
def zedisAolLpush (log : ZedisAppendLog) (list : ListMeta) (key val : Bytes) :
    Int × ZedisAppendLog × ListMeta :=
  if key.length = 0 ∨ key.length > zedisAolMaxKey ∨ val.length = 0 ∨ val.length > zedisAolMaxElem then
    (-1, log, list)
  else
    let need := recordSize key.length val.length
    if (log.writePos + need) % sizeMod > log.capacity then (-1, log, list)
    else
      let off := log.writePos % offMod
      (0, { log with
          base := writeRecord log.base log.writePos list.headOff key val
          writePos := (log.writePos + need) % sizeMod },
        { headOff := off
          tailOff := if list.headOff = zedisAolNoPrev then off else list.tailOff
          count := (list.count + 1) % offMod })

/-- `hdr_at`. -/
def hdrAt (log : ZedisAppendLog) (off : Nat) : Bool :=
  !(off == zedisAolNoPrev || decide (off + aolHdrSize > log.capacity))

/-- The field `prev_off` of the header at an offset. -/
def hdrPrevOff (log : ZedisAppendLog) (off : Nat) : Nat := leValue (segment log.base off 4)

/-- The field `key_len`. -/
def hdrKeyLen (log : ZedisAppendLog) (off : Nat) : Nat := leValue (segment log.base (off + 4) 2)

/-- The field `val_len`. -/
def hdrValLen (log : ZedisAppendLog) (off : Nat) : Nat := leValue (segment log.base (off + 6) 2)

/-- The `val_len` bytes at `val_at`. -/
def valAt (log : ZedisAppendLog) (off : Nat) : Bytes :=
  segment log.base (off + aolHdrSize + hdrKeyLen log off) (hdrValLen log off)

/-- The loop of `zedis_aol_lrange` that fills `offsets`, which has room for `room` more. -/
def chainWalk (log : ZedisAppendLog) : Nat → Nat → List Nat
  | 0, _ => []
  | room + 1, cur =>
    if cur = zedisAolNoPrev then []
    else if hdrAt log cur = false then []
    else cur :: chainWalk log room (hdrPrevOff log cur)

/-- The loop body of `zedis_aol_lrange` that prints an element after the reply so far. -/
def printElement (log : ZedisAppendLog) (replyCap : Nat) (reply : Bytes) (off : Nat) : Option Bytes :=
  if hdrAt log off = false then none
  else
    let text := bulkText (valAt log off)
    if reply.length + text.length ≥ replyCap then none else some (reply ++ text)

/-- `zedis_aol_lrange`: the first `*reply_len` bytes of the reply; `none` is the return value `-1`. -/
def zedisAolLrange (log : ZedisAppendLog) (list : ListMeta) (start stop : Int) (replyCap : Nat) :
    Option Bytes :=
  if list.count = 0 ∨ list.headOff = zedisAolNoPrev then formatted (arrayHeader 0) replyCap
  else
    let offsets := chainWalk log 1024 list.headOff
    let start := if start < 0 then 0 else start
    let stop := if stop < 0 ∨ stop ≥ offsets.length then (offsets.length : Int) - 1 else stop
    if start > stop then formatted (arrayHeader 0) replyCap
    else
      let count := (stop - start + 1).toNat
      (formatted (arrayHeader count) replyCap).bind fun header =>
        ((offsets.drop start.toNat).take count).foldlM (printElement log replyCap) header

/-- `zedis_aol_llen`. -/
def zedisAolLlen (list : ListMeta) : Nat := list.count

/-! ### Lists sharing a log -/

/-- A log and its lists. -/
structure SharedLog where
  log : ZedisAppendLog
  lists : Nat → ListMeta

/-- A `zedis_aol_lpush` call to one of the lists. -/
structure Push where
  list : Nat
  key : Bytes
  val : Bytes
deriving DecidableEq, Repr

/-- The log and the lists a call leaves, with its return value. -/
def sharedPush (s : SharedLog) (op : Push) : Int × SharedLog :=
  let (rc, log, list) := zedisAolLpush s.log (s.lists op.list) op.key op.val
  (rc, ⟨log, Function.update s.lists op.list list⟩)

end Zedis.AppendLog

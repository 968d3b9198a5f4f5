/-
**The Robin Hood hash table (`src/hash_table.c`, `include/hash_table.h`).**

A table is a fixed array of `capacity` entries. `zedis_ht_set` walks from the home slot of the key
and swaps its entry with one that is nearer to home than the carried one; `zedis_ht_get` and
`zedis_ht_del` walk the same way and give up at an empty slot or at an entry nearer to home than the
walk has come. A deletion leaves a tombstone whose `psl` is `0`.

The three `for (;;)` loops are modelled with a bound on the slots they visit; `none` is a loop that
has not returned after `capacity + 1` of them. `psl` is a `uint32_t` and wraps. `capacity` entries
of `htEntrySize` bytes each are laid out in memory, so the `size_t` products of the load check are
those of the integers.
-/

import Zedis.Arena.Regions
import Zedis.Lib.Bytes
import Mathlib.Logic.Function.Basic

namespace Zedis.HashTable

open Zedis.Lib Zedis.Arena

/-- `ZEDIS_HT_MAX_KEY`. -/
def zedisHtMaxKey : Nat := 256

/-- `ZEDIS_HT_MAX_VALUE`. -/
def zedisHtMaxValue : Nat := 4096

/-- `sizeof(ht_entry_t)`. -/
def htEntrySize : Nat := 4384

/-- `UINT32_MAX + 1`. -/
def pslMod : Nat := 2 ^ 32

/-- `ht_state_t`. -/
inductive HtState
  | empty
  | occupied
  | tombstone
deriving DecidableEq, Repr

/-- `ht_entry_t`; `key` and `value` are the first `key_len` and `value_len` bytes of its arrays. -/
structure HtEntry where
  state : HtState
  psl : Nat
  hash : UInt32
  key : Bytes
  value : Bytes
deriving DecidableEq, Repr

/-- An entry of zeroed memory. -/
def zeroEntry : HtEntry := ⟨.empty, 0, 0, [], []⟩

/-- `zedis_hash_table_t`. -/
structure ZedisHashTable where
  entries : Nat → HtEntry
  capacity : Nat
  count : Nat

/-- `ht_hash`: 32-bit FNV-1a. -/
def htHash (key : Bytes) : UInt32 :=
  key.foldl (fun h byte => (h ^^^ byte.toUInt32) * 16777619) 2166136261

/-- `zedis_ht_init`: `none` is the return value `-1`. -/
def zedisHtInit (arena : ZedisArena) (capacity : Nat) : Option (ZedisHashTable × ZedisArena) :=
  if capacity = 0 then none
  else (zedisArenaCalloc arena capacity htEntrySize 64).map fun granted =>
    (⟨fun _ => zeroEntry, capacity, 0⟩, granted.2)

/-- `entry_key_match`. -/
def entryKeyMatch (e : HtEntry) (hash : UInt32) (key : Bytes) : Bool :=
  e.state == .occupied && e.hash == hash && e.key.length == key.length && e.key == key

/-- The slot where the walk for a hash starts. -/
def homeSlot (ht : ZedisHashTable) (hash : UInt32) : Nat := hash.toNat % ht.capacity

/-! ### Set -/

/-- The loop of `zedis_ht_set`, at most `fuel` slots of it: the entries it leaves, and whether it
incremented `count`. The match is with the key of the call, not with the carried entry's. -/
def setLoop (capacity : Nat) (hash : UInt32) (key value : Bytes) :
    Nat → (Nat → HtEntry) → Nat → Nat → HtEntry → Option ((Nat → HtEntry) × Bool)
  | 0, _, _, _, _ => none
  | fuel + 1, entries, idx, psl, incoming =>
    let e := entries idx
    let placed : HtEntry := ⟨.occupied, psl, incoming.hash, incoming.key, incoming.value⟩
    if e.state = .empty ∨ e.state = .tombstone then
      some (Function.update entries idx placed, true)
    else if entryKeyMatch e hash key then
      some (Function.update entries idx { e with value := value }, false)
    else if psl > e.psl then
      setLoop capacity hash key value fuel (Function.update entries idx placed)
        ((idx + 1) % capacity) ((e.psl + 1) % pslMod) e
    else
      setLoop capacity hash key value fuel entries ((idx + 1) % capacity) ((psl + 1) % pslMod)
        incoming

/-- `zedis_ht_set`: the return value and the table it leaves. -/
def zedisHtSet (ht : ZedisHashTable) (key value : Bytes) : Option (Int × ZedisHashTable) :=
  if key.length > zedisHtMaxKey ∨ value.length > zedisHtMaxValue then some (-1, ht)
  else if ht.count * 10 ≥ ht.capacity * 7 then some (-1, ht)
  else
    let hash := htHash key
    (setLoop ht.capacity hash key value (ht.capacity + 1) ht.entries (homeSlot ht hash) 0
        { zeroEntry with hash := hash, key := key, value := value }).map
      fun (entries, inserted) =>
        (0, { ht with entries := entries, count := if inserted then ht.count + 1 else ht.count })

/-! ### Get and delete -/

/-- The loop of `zedis_ht_get` and of `zedis_ht_del`, at most `fuel` slots of it: the slot of the
match, or `none` where the loop returns `-1`. -/
def probeLoop (ht : ZedisHashTable) (hash : UInt32) (key : Bytes) :
    Nat → Nat → Nat → Option (Option Nat)
  | 0, _, _ => none
  | fuel + 1, idx, psl =>
    let e := ht.entries idx
    if e.state = .empty then some none
    else if entryKeyMatch e hash key then some (some idx)
    else if psl > e.psl then some none
    else probeLoop ht hash key fuel ((idx + 1) % ht.capacity) ((psl + 1) % pslMod)

/-- The slot that `zedis_ht_get` and `zedis_ht_del` find for a key. -/
def probe (ht : ZedisHashTable) (key : Bytes) : Option (Option Nat) :=
  probeLoop ht (htHash key) key (ht.capacity + 1) (homeSlot ht (htHash key)) 0

/-- What a hit of `zedis_ht_get` writes: the bytes stored in `value_out` (with their terminating
NUL), and `*value_len_out`. -/
structure HtHit where
  valueOut : Bytes
  valueLen : Nat
deriving DecidableEq, Repr

/-- The copy of a found value to a buffer of `valueCap` bytes (`0` where there is none). -/
def copyOut (value : Bytes) (valueCap : Nat) : HtHit :=
  ⟨if valueCap > 0 then
      value.take (if value.length < valueCap then value.length else valueCap - 1) ++ [0]
    else [], value.length⟩

/-- `zedis_ht_get`: `some none` is the return value `-1`. -/
def zedisHtGet (ht : ZedisHashTable) (key : Bytes) (valueCap : Nat) : Option (Option HtHit) :=
  if ht.capacity = 0 then some none
  else (probe ht key).map fun found => found.map fun slot => copyOut (ht.entries slot).value valueCap

/-- `zedis_ht_del`: the return value and the table it leaves. -/
def zedisHtDel (ht : ZedisHashTable) (key : Bytes) : Option (Int × ZedisHashTable) :=
  (probe ht key).map fun found =>
    match found with
    | none => (-1, ht)
    | some slot =>
      (0, { ht with
        entries := Function.update ht.entries slot
          { ht.entries slot with state := .tombstone, psl := 0 }
        count := ht.count - 1 })

/-! ### Runs -/

/-- A call that may change a table. -/
inductive HtOp
  | set (key value : Bytes)
  | del (key : Bytes)
deriving DecidableEq, Repr

/-- The table a call leaves. -/
def htStep (ht : ZedisHashTable) : HtOp → Option ZedisHashTable
  | .set key value => (zedisHtSet ht key value).map Prod.snd
  | .del key => (zedisHtDel ht key).map Prod.snd

end Zedis.HashTable

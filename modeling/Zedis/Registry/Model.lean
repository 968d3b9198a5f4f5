/-
**The registries of sorted sets and of lists (`src/key_registry.c`, `include/key_registry.h`).**

A registry owns an array of trees, or of list heads, and a hash table that maps a key to the decimal
form of its index in the array. The first `ZADD` or `LPUSH` on a key takes the next index; indices are
never given back. Both registries have the fields `keys`, `max_*` and `used`, and the same code for
them (`zset_index_for_key`, `list_index_for_key`), which is `indexForKey` here.
-/

import Zedis.AppendLog.Model
import Zedis.BTree.Model
import Zedis.HashTable.Model
import Zedis.Lib.Decimal

namespace Zedis.Registry

open Zedis.Lib Zedis.Arena Zedis.Reply Zedis.HashTable Zedis.BTree Zedis.AppendLog

/-! ### The index of a key -/

/-- `isspace`. -/
def isSpace (b : UInt8) : Bool := b == 32 || (9 ≤ b && b ≤ 13)

/-- `strtoul(text, NULL, 10)`: blanks, a sign, and the digits up to the first other byte. -/
def strtoul (text : Bytes) : Nat :=
  let text := text.dropWhile isSpace
  let neg := text.head? == some 45
  let digits := if neg || text.head? == some 43 then text.tail else text
  let value := digitsValue (digits.takeWhile isDigit)
  if value ≥ sizeMod then sizeMod - 1
  else if neg then (sizeMod - value) % sizeMod
  else value

/-- `lookup_index`: `some none` is the return value `-1`. -/
def lookupIndex (ht : ZedisHashTable) (key : Bytes) : Option (Option Nat) :=
  (zedisHtGet ht key 32).map fun found => found.map fun hit => strtoul hit.valueOut % 2 ^ 32

/-- `store_index`. -/
def storeIndex (ht : ZedisHashTable) (key : Bytes) (idx : Nat) : Option (Int × ZedisHashTable) :=
  zedisHtSet ht key (decimal idx)

/-- The fields that both registries have; `max` is `max_zsets` or `max_lists`. -/
structure KeyIndex where
  keys : ZedisHashTable
  max : Nat
  used : Nat

/-- The code of `zset_index_for_key` and of `list_index_for_key`: the index (`none` is the return
value `-1`), and the fields it leaves. An index that could not be stored is used up. -/
def indexForKey (reg : KeyIndex) (key : Bytes) (create : Bool) : Option (Option Nat × KeyIndex) :=
  (lookupIndex reg.keys key).bind fun found =>
    match found with
    | some idx => some (some idx, reg)
    | none =>
      if create = false then some (none, reg)
      else if reg.used ≥ reg.max then some (none, reg)
      else
        let idx := reg.used
        (storeIndex reg.keys key idx).map fun (rc, keys) =>
          (if rc ≠ 0 then none else some idx, { reg with keys := keys, used := reg.used + 1 })

/-! ### Sorted sets -/

/-- `zedis_zset_registry_t`. -/
structure ZedisZsetRegistry extends KeyIndex where
  trees : Nat → ZedisBtree

/-- `sizeof(zedis_btree_t)`. -/
def btreeSize : Nat := 40

/-- The loop of `zedis_zset_reg_init` over the trees from `i` on, `left` of them. -/
def initTrees (maxMembers : Nat) :
    Nat → Nat → (Nat → ZedisBtree) → ZedisArena → Option ((Nat → ZedisBtree) × ZedisArena)
  | 0, _, trees, arena => some (trees, arena)
  | left + 1, i, trees, arena =>
    (zedisBtreeInit arena maxMembers).bind fun (tree, arena) =>
      initTrees maxMembers left (i + 1) (Function.update trees i tree) arena

/-- A tree of zeroed memory. -/
def zeroTree : ZedisBtree := ⟨fun _ => zeroNode, fun _ => zeroMember, none, 0, 0, 0, 0⟩

/-- `zedis_zset_reg_init`: `none` is the return value `-1`. -/
def zedisZsetRegInit (arena : ZedisArena) (maxZsets maxMembersPerZset : UInt32) :
    Option (ZedisZsetRegistry × ZedisArena) :=
  if maxZsets = 0 then none
  else
    (zedisArenaCalloc arena maxZsets.toNat btreeSize 64).bind fun (_, arena) =>
      (initTrees maxMembersPerZset.toNat maxZsets.toNat 0 (fun _ => zeroTree) arena).bind
        fun (trees, arena) =>
          (zedisHtInit arena (maxZsets * 2).toNat).map fun (keys, arena) =>
            (⟨⟨keys, maxZsets.toNat, 0⟩, trees⟩, arena)

/-- `zset_index_for_key`. -/
def zsetIndexForKey (reg : ZedisZsetRegistry) (key : Bytes) (create : Bool) :
    Option (Option Nat × ZedisZsetRegistry) :=
  (indexForKey reg.toKeyIndex key create).map fun (found, fields) =>
    (found, { reg with toKeyIndex := fields })

/-- `zedis_zset_reg_add`. -/
def zedisZsetRegAdd (reg : ZedisZsetRegistry) (key : Bytes) (score : Int) (member : Bytes) :
    Option (Int × ZedisZsetRegistry) :=
  (zsetIndexForKey reg key true).bind fun (found, reg) =>
    match found with
    | none => some (-1, reg)
    | some idx =>
      (zedisBtreeAdd (reg.trees idx) score member).map fun (rc, tree) =>
        (rc, { reg with trees := Function.update reg.trees idx tree })

/-- `zedis_zset_reg_score`: `some none` is the return value `-1`. -/
def zedisZsetRegScore (reg : ZedisZsetRegistry) (key member : Bytes) : Option (Option Int) :=
  (lookupIndex reg.keys key).bind fun found =>
    match found with
    | none => some none
    | some idx => zedisBtreeScore (reg.trees idx) member

/-- `zedis_zset_reg_range`: the reply; `some none` is the return value `-1`. -/
def zedisZsetRegRange (reg : ZedisZsetRegistry) (key : Bytes) (start stop : Int) (replyCap : Nat) :
    Option (Option Bytes) :=
  (lookupIndex reg.keys key).bind fun found =>
    match found with
    | none => some (formatted (arrayHeader 0) replyCap)
    | some idx => zedisBtreeRange (reg.trees idx) start stop replyCap

/-! ### Lists -/

/-- `zedis_list_registry_t`. -/
structure ZedisListRegistry extends KeyIndex where
  lists : Nat → ListMeta

/-- `sizeof(list_meta_t)`. -/
def listMetaSize : Nat := 12

/-- `zedis_list_reg_init`: `none` is the return value `-1`. -/
def zedisListRegInit (arena : ZedisArena) (maxLists : UInt32) :
    Option (ZedisListRegistry × ZedisArena) :=
  if maxLists = 0 then none
  else
    (zedisArenaCalloc arena maxLists.toNat listMetaSize 64).bind fun (_, arena) =>
      (zedisHtInit arena (maxLists * 2).toNat).map fun (keys, arena) =>
        (⟨⟨keys, maxLists.toNat, 0⟩, fun _ => emptyList⟩, arena)

/-- `list_index_for_key`. -/
def listIndexForKey (reg : ZedisListRegistry) (key : Bytes) (create : Bool) :
    Option (Option Nat × ZedisListRegistry) :=
  (indexForKey reg.toKeyIndex key create).map fun (found, fields) =>
    (found, { reg with toKeyIndex := fields })

/-- `zedis_list_reg_lpush`: the return value, the registry and the log. -/
def zedisListRegLpush (reg : ZedisListRegistry) (log : ZedisAppendLog) (key val : Bytes) :
    Option (Int × ZedisListRegistry × ZedisAppendLog) :=
  (listIndexForKey reg key true).map fun (found, reg) =>
    match found with
    | none => (-1, reg, log)
    | some idx =>
      let (rc, log, list) := zedisAolLpush log (reg.lists idx) key val
      (rc, { reg with lists := Function.update reg.lists idx list }, log)

/-- `zedis_list_reg_lrange`: the reply; `some none` is the return value `-1`. -/
def zedisListRegLrange (reg : ZedisListRegistry) (log : ZedisAppendLog) (key : Bytes)
    (start stop : Int) (replyCap : Nat) : Option (Option Bytes) :=
  (lookupIndex reg.keys key).map fun found =>
    match found with
    | none => formatted (arrayHeader 0) replyCap
    | some idx => zedisAolLrange log (reg.lists idx) start stop replyCap

/-- `zedis_list_reg_llen`: `*len_out`. -/
def zedisListRegLlen (reg : ZedisListRegistry) (key : Bytes) : Option Nat :=
  (lookupIndex reg.keys key).map fun found =>
    match found with
    | none => 0
    | some idx => zedisAolLlen (reg.lists idx)

/-! ### Runs -/

/-- Both registries, and the log that the lists share. -/
structure Registries where
  zsets : ZedisZsetRegistry
  lists : ZedisListRegistry
  log : ZedisAppendLog

/-- A request that may change them. -/
inductive RegRequest
  | add (key : Bytes) (score : Int) (member : Bytes)
  | lpush (key val : Bytes)
deriving DecidableEq, Repr

/-- The key a request is on. -/
def RegRequest.key : RegRequest → Bytes
  | .add key _ _ => key
  | .lpush key _ => key

/-- The state a request leaves. -/
def regStep (s : Registries) : RegRequest → Option Registries
  | .add key score member =>
    (zedisZsetRegAdd s.zsets key score member).map fun (_, zsets) => { s with zsets := zsets }
  | .lpush key val =>
    (zedisListRegLpush s.lists s.log key val).map fun (_, lists, log) =>
      { s with lists := lists, log := log }

end Zedis.Registry

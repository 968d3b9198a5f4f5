/-
**The range replies of the registries.**

What `ZRANGE` and `LRANGE` read under a key is a list of strings, `zsetItems` and `listItems`, which is
empty for a key without an index. A reply is made from a slice of it: `ZRANGE` leaves out the members
that do not fit when it is their turn, `LRANGE` fails if the elements do not fit together.
-/

import Zedis.AppendLog.Range
import Zedis.BTree.Range
import Zedis.Registry.Sound

namespace Zedis.Registry

open Zedis.Lib Zedis.Reply Zedis.BTree Zedis.AppendLog

/-- The members under a key, in the order of the walk. -/
def zsetItems (reg : ZedisZsetRegistry) (key : Bytes) : List Bytes :=
  match lookupIndex reg.keys key with
  | some (some idx) => membersOf (reg.trees idx)
  | _ => []

/-- The values under a key, from the newest on. -/
def listItems (reg : ZedisListRegistry) (log : ZedisAppendLog) (key : Bytes) : List Bytes :=
  match lookupIndex reg.keys key with
  | some (some idx) => valuesOf log (reg.lists idx)
  | _ => []

/-- **The reply to `ZRANGE`.** -/
theorem zedisZsetRegRange_eq {reg : ZedisZsetRegistry} {index : Bytes → Option Nat}
    (inv : ZsetInv reg index) (key : Bytes) (start stop : Int) (replyCap : Nat) :
    zedisZsetRegRange reg key start stop replyCap =
      some (fittingText (slice (zsetItems reg key) start stop) replyCap) := by
  unfold zedisZsetRegRange zsetItems
  rw [lookupIndex_eq inv.index]
  cases has : index key with
  | none =>
    rw [slice_nil]
    exact congrArg some Option.map_id'.symm
  | some i =>
    obtain ⟨t, set⟩ := inv.trees i (inv.below has)
    exact zedisBtreeRange_eq set start stop replyCap

/-- Members are short. -/
theorem length_of_zsetItems {reg : ZedisZsetRegistry} {index : Bytes → Option Nat}
    (inv : ZsetInv reg index) {key data : Bytes} (member : data ∈ zsetItems reg key) :
    data.length < zedisBtreeMaxMember := by
  unfold zsetItems at member
  rw [lookupIndex_eq inv.index] at member
  cases has : index key with
  | none =>
    rw [has] at member
    cases member
  | some i =>
    rw [has] at member
    obtain ⟨t, set⟩ := inv.trees i (inv.below has)
    exact length_of_membersOf set member

/-- A sorted set has at most `ZEDIS_BTREE_MAX_ENTRIES` members. -/
theorem length_zsetItems {reg : ZedisZsetRegistry} {index : Bytes → Option Nat}
    (inv : ZsetInv reg index) (key : Bytes) :
    (zsetItems reg key).length ≤ zedisBtreeMaxEntries := by
  unfold zsetItems
  rw [lookupIndex_eq inv.index]
  cases has : index key with
  | none => exact Nat.zero_le _
  | some i =>
    obtain ⟨t, set⟩ := inv.trees i (inv.below has)
    dsimp only
    rw [length_membersOf set]
    exact set.sized.members.trans (inv.bounded i (inv.below has))

/-- **The reply to `LRANGE`.** -/
theorem zedisListRegLrange_eq {reg : ZedisListRegistry} {index : Bytes → Option Nat}
    (ok : IndexOk reg.toKeyIndex index) (log : ZedisAppendLog) (key : Bytes) (start stop : Int)
    (replyCap : Nat) : zedisListRegLrange reg log key start stop replyCap =
      some (formatted (rangeText (slice (listItems reg log key) start stop)) replyCap) := by
  unfold zedisListRegLrange listItems
  rw [lookupIndex_eq ok]
  cases has : index key with
  | none =>
    rw [slice_nil]
    rfl
  | some i =>
    rw [Option.map_some]
    exact congrArg some (zedisAolLrange_eq log _ start stop replyCap)

end Zedis.Registry

/-
**What the stores are for.**

The abstract store is four maps: strings by key, scores by key and member, lists by key, and the
quantities of the order book by side and price. `Allows limits store request reply next` says which
reply a request may get and what the store is then. It knows nothing of slots, trees, offsets or
buffers; of the sizes it knows that a table of strings is full at seven tenths, that a list is read up
to its 1024 newest elements, and that a reply has a buffer of 4096 or 8192 bytes. A `ZADD` of a new
member and an `LPUSH` may be refused, and then nothing has changed.

`Refines limits server store`: the hash table, the registries, the log and the order book of a server
hold the store. Each store is read and changed as the abstract one is: `StringsRefine.set`,
`SetsRefine.add`, `ListsRefine.push`, `BookRefine.place`.
-/

import Zedis.BTree.ScoreMap
import Zedis.HashTable.Accounting
import Zedis.Server.Orders
import Zedis.Server.ReadBack

namespace Zedis.Server

open Zedis.Lib Zedis.Reply Zedis.HashTable Zedis.BTree Zedis.AppendLog Zedis.Registry Zedis.Resp
open Zedis.OrderBook

/-! ### The abstract store -/

/-- What a client asks of the stores. -/
inductive Request
  | set (key value : Bytes)
  | get (key : Bytes)
  | del (key : Bytes)
  | zadd (key : Bytes) (score : Int) (member : Bytes)
  | zscore (key member : Bytes)
  | zrange (key : Bytes) (start stop : Int)
  | lpush (key value : Bytes)
  | llen (key : Bytes)
  | lrange (key : Bytes) (start stop : Int)
  | order (side : Side) (price qty : Int)
  | level (price : Int)
deriving DecidableEq, Repr

/-- **The abstract store.** -/
structure Store where
  strings : Bytes → Option Bytes
  sets : Bytes → Bytes → Option Int
  lists : Bytes → List Bytes
  book : Side → Int → Int

/-- The store of a new server. -/
def Store.empty : Store := ⟨fun _ => none, fun _ _ => none, fun _ => [], fun _ _ => 0⟩

/-- A string is stored, or removed. -/
def Store.putString (store : Store) (key : Bytes) (value : Option Bytes) : Store :=
  { store with strings := Function.update store.strings key value }

/-- A member gets a score. -/
def Store.putScore (store : Store) (key member : Bytes) (score : Int) : Store :=
  { store with
    sets := Function.update store.sets key (Function.update (store.sets key) member (some score)) }

/-- A value is put in front of a list. -/
def Store.pushValue (store : Store) (key value : Bytes) : Store :=
  { store with lists := Function.update store.lists key (value :: store.lists key) }

/-- A quantity is added to a level, which does not fall below zero. -/
def Store.placeOrder (store : Store) (side : Side) (price qty : Int) : Store :=
  { store with
    book := Function.update store.book side
      (Function.update (store.book side) price (max 0 (store.book side price + qty))) }

/-- The sizes that clients can see. -/
structure Limits where
  maxKeys : Nat
  priceMin : Int
  priceMax : Int

/-- The sizes that a configuration sets. -/
def ZedisConfig.limits (config : ZedisConfig) : Limits :=
  ⟨config.maxKeys, config.bookPriceMin, config.bookPriceMax⟩

/-- The price has a level: it is in the range, and its offset is an `int`. -/
def Limits.HasLevel (limits : Limits) (price : Int) : Prop :=
  limits.priceMin ≤ price ∧ price ≤ limits.priceMax ∧ price - limits.priceMin < 2 ^ 31

/-- The strings fill seven tenths of their table. -/
def Full (limits : Limits) (strings : Bytes → Option Bytes) : Prop :=
  ∃ keys : Finset Bytes, (∀ key, key ∈ keys ↔ strings key ≠ none) ∧
    limits.maxKeys * 7 ≤ keys.card * 10

/-- The members of a set, each once, in the order of their scores. -/
structure Arranged (set : Bytes → Option Int) (items : List Bytes) : Prop where
  nodup : items.Nodup
  mem_iff : ∀ member, member ∈ items ↔ set member ≠ none
  sorted : items.Pairwise fun one two => ∀ score score', set one = some score →
    set two = some score' → score ≤ score'

/-- The text of an error. -/
def errorText (msg : Bytes) : Bytes := encode (.error msg)

/-- The reply to `LRANGE`, for the elements it reads. -/
def lrangeReply (items : List Bytes) : Bytes :=
  if (rangeText items).length < 8192 then rangeText items else errorText (ascii "ERR lrange failed")

/-- **The replies that a request may get**, and the store after it. -/
inductive Allows (limits : Limits) (store : Store) : Request → Option Bytes → Store → Prop
  | set (key value : Bytes) : ¬ TooLong key value → ¬ Full limits store.strings →
      Allows limits store (.set key value) (some (encode (.simple (ascii "OK"))))
        (store.putString key (some value))
  | setRefused (key value : Bytes) : TooLong key value ∨ Full limits store.strings →
      Allows limits store (.set key value)
        (some (errorText (ascii "ERR hash table full or value too large"))) store
  | get (key value : Bytes) : store.strings key = some value → value.length ≤ 4086 →
      Allows limits store (.get key) (some (encode (.bulk value))) store
  | getLong (key value : Bytes) : store.strings key = some value → 4086 < value.length →
      Allows limits store (.get key) none store
  | getMissing (key : Bytes) : store.strings key = none →
      Allows limits store (.get key) (some (encode .null)) store
  | del (key : Bytes) : Allows limits store (.del key)
      (some (encode (.integer (if (store.strings key).isSome then 1 else 0))))
      (store.putString key none)
  | zadd (key : Bytes) (score : Int) (member : Bytes) : Allows limits store (.zadd key score member)
      (some (encode (.integer (if (store.sets key member).isSome then 0 else 1))))
      (store.putScore key member score)
  | zaddRefused (key : Bytes) (score : Int) (member : Bytes) : store.sets key member = none →
      Allows limits store (.zadd key score member)
        (some (errorText (ascii "ERR zset full or member too large"))) store
  | zscore (key member : Bytes) (score : Int) : store.sets key member = some score →
      Allows limits store (.zscore key member) (some (encode (.bulk (printG17 (toDouble score))))) store
  | zscoreMissing (key member : Bytes) : store.sets key member = none →
      Allows limits store (.zscore key member) (some (encode .null)) store
  | zrange (key : Bytes) (start stop : Int) (items : List Bytes) (text : Bytes) :
      Arranged (store.sets key) items → fittingText (slice items start stop) 8192 = some text →
      Allows limits store (.zrange key start stop) (some text) store
  | lpush (key value : Bytes) : Allows limits store (.lpush key value)
      (some (encode (.integer ((store.lists key).length + 1))))
      (store.pushValue key value)
  | lpushRefused (key value : Bytes) : Allows limits store (.lpush key value)
      (some (errorText (ascii "ERR list full or append log full"))) store
  | llen (key : Bytes) : Allows limits store (.llen key)
      (some (encode (.integer (store.lists key).length))) store
  | lrange (key : Bytes) (start stop : Int) : Allows limits store (.lrange key start stop)
      (some (lrangeReply (slice ((store.lists key).take 1024) start stop))) store
  | order (side : Side) (price qty : Int) : limits.HasLevel price →
      Allows limits store (.order side price qty) (some (encode (.integer qty)))
        (store.placeOrder side price qty)
  | orderRefused (side : Side) (price qty : Int) : ¬ limits.HasLevel price →
      Allows limits store (.order side price qty)
        (some (errorText (ascii "ERR price out of range"))) store
  | level (price : Int) : limits.HasLevel price → Allows limits store (.level price)
      (some (encode (.array [.integer (store.book .bid price), .integer (store.book .ask price)]))) store
  | levelRefused (price : Int) : ¬ limits.HasLevel price → Allows limits store (.level price)
      (some (errorText (ascii "ERR price out of range"))) store

/-! ### Strings -/

/-- The table holds the strings. -/
structure StringsRefine (limits : Limits) (ht : ZedisHashTable) (strings : Bytes → Option Bytes) :
    Prop where
  ordered : Ordered ht
  represents : Represents ht strings
  capacity : ht.capacity = limits.maxKeys

section Strings

variable {limits : Limits} {ht : ZedisHashTable} {strings : Bytes → Option Bytes}

/-- The keys of the strings are those of the occupied slots, each once. -/
theorem StringsRefine.card_keys (refines : StringsRefine limits ht strings) {keys : Finset Bytes}
    (isKeys : ∀ key, key ∈ keys ↔ strings key ≠ none) : keys.card = ht.count := by
  have image : (occupiedSlots ht).image (fun slot => (ht.entries slot).key) = keys := by
    ext key
    rw [isKeys, Finset.mem_image, Option.ne_none_iff_exists']
    constructor
    · rintro ⟨slot, member, rfl⟩
      obtain ⟨inside, occupied⟩ := mem_occupiedSlots.mp member
      exact ⟨_, (refines.represents _ _).mpr ⟨slot, inside, occupied, rfl, rfl⟩⟩
    · rintro ⟨value, stored⟩
      obtain ⟨slot, inside, occupied, same, -⟩ := (refines.represents _ _).mp stored
      exact ⟨slot, mem_occupiedSlots.mpr ⟨inside, occupied⟩, same⟩
  rw [refines.ordered.inv.count_eq, ← image]
  apply Finset.card_image_of_injOn
  intro slot member slot' member' same
  obtain ⟨inside, occupied⟩ := mem_occupiedSlots.mp member
  obtain ⟨inside', occupied'⟩ := mem_occupiedSlots.mp member'
  exact refines.ordered.order.unique slot inside slot' inside' occupied occupied' same

theorem StringsRefine.full_iff (refines : StringsRefine limits ht strings) :
    Full limits strings ↔ ht.capacity * 7 ≤ ht.count * 10 := by
  constructor
  · rintro ⟨keys, isKeys, full⟩
    rwa [refines.card_keys isKeys, ← refines.capacity] at full
  · intro full
    have isKeys : ∀ key, key ∈ (occupiedSlots ht).image (fun slot => (ht.entries slot).key) ↔
        strings key ≠ none := by
      intro key
      rw [Ne, refines.represents.none_iff, Finset.mem_image]
      push Not
      exact exists_congr fun slot => by rw [mem_occupiedSlots, and_assoc]
    refine ⟨_, isKeys, ?_⟩
    rwa [refines.card_keys isKeys, ← refines.capacity]

/-- A set is refused exactly if its strings are too long or the table is full. -/
theorem StringsRefine.refused_iff (refines : StringsRefine limits ht strings) {key value : Bytes} :
    HashTable.Refused ht key value ↔ TooLong key value ∨ Full limits strings := by
  rw [refines.full_iff, HashTable.Refused, TooLong]

/-- **A `zedis_ht_set`.** -/
theorem StringsRefine.set (refines : StringsRefine limits ht strings) (key value : Bytes) :
    ((TooLong key value ∨ Full limits strings) ∧ zedisHtSet ht key value = some (-1, ht)) ∨
      ¬ TooLong key value ∧ ¬ Full limits strings ∧ ∃ after, zedisHtSet ht key value = some (0, after) ∧
        StringsRefine limits after (Function.update strings key (some value)) := by
  by_cases refused : HashTable.Refused ht key value
  · exact Or.inl ⟨refines.refused_iff.mp refused, zedisHtSet_refused refused⟩
  · have accepted := mt refines.refused_iff.mpr refused
    rw [not_or] at accepted
    obtain ⟨after, ends, capacity, ordered, represents⟩ :=
      zedisHtSet_represents refines.ordered refines.represents refused
    exact Or.inr ⟨accepted.1, accepted.2, after, ends, ordered, represents,
      capacity.trans refines.capacity⟩

/-- **A `zedis_ht_del` that is safe.** -/
theorem StringsRefine.del (refines : StringsRefine limits ht strings) {key : Bytes}
    (safe : SafeDel ht key) :
    ∃ after, zedisHtDel ht key = some (if (strings key).isSome then 0 else -1, after) ∧
      StringsRefine limits after (Function.update strings key none) := by
  obtain ⟨after, ends, capacity, ordered, represents⟩ :=
    zedisHtDel_represents refines.ordered refines.represents safe
  exact ⟨after, ends, ordered, represents, capacity.trans refines.capacity⟩

theorem StringsRefine.start (positive : 0 < limits.maxKeys) (small : limits.maxKeys ≤ 2 ^ 32) :
    StringsRefine limits ⟨fun _ => zeroEntry, limits.maxKeys, 0⟩ fun _ => none where
  ordered := init_ordered positive small
  represents := fun key value => ⟨nofun, fun ⟨slot, _, occupied, _⟩ => by cases occupied⟩
  capacity := rfl

end Strings

/-! ### Sorted sets -/

/-- The registry holds the scores. -/
def SetsRefine (reg : ZedisZsetRegistry) (sets : Bytes → Bytes → Option Int) : Prop :=
  ∃ index, ZsetInv reg index ∧
    ∀ key member, zedisZsetRegScore reg key member = some (sets key member)

section Sets

variable {reg : ZedisZsetRegistry} {index : Bytes → Option Nat} {sets : Bytes → Bytes → Option Int}

/-- A score is read from the tree of the key. -/
theorem zedisZsetRegScore_eq (inv : ZsetInv reg index) (key member : Bytes) :
    zedisZsetRegScore reg key member =
      (index key).elim (some none) fun i => zedisBtreeScore (reg.trees i) member := by
  rw [zedisZsetRegScore, lookupIndex_eq inv.index, Option.bind_some]
  cases index key with
  | none => rfl
  | some i => rfl

/-- A tree without members has no scores. -/
theorem zedisBtreeScore_of_empty {tree : ZedisBtree} {t : ScoreTrees} (inv : SetInv tree t)
    (empty : tree.memberCount = 0) (member : Bytes) : zedisBtreeScore tree member = some none := by
  obtain ⟨found, isFound⟩ := inv.score_returns member
  cases found with
  | none => exact isFound
  | some score =>
    obtain ⟨i, below, -⟩ := inv.score_eq_some_iff.mp isFound
    rw [empty] at below
    exact absurd below (Nat.not_lt_zero i)

/-- The scores that the tree of an index showed under its key before the request. -/
theorem zedisZsetRegScore_before {fields : KeyIndex} {index' : Bytes → Option Nat} {key : Bytes}
    {i : Nat} (inv : ZsetInv reg index)
    (result : IndexResult reg.toKeyIndex index key (some i) fields index') (member : Bytes) :
    zedisZsetRegScore reg key member = zedisBtreeScore (reg.trees i) member := by
  rw [zedisZsetRegScore_eq inv]
  cases result with
  | found _ has => rw [has, Option.elim_some]
  | assigned keys none free _ =>
    -- a new index is that of an empty tree
    obtain ⟨t, set⟩ := inv.trees reg.used free
    rw [none, Option.elim_none, zedisBtreeScore_of_empty set (inv.unused _ le_rfl free).1]

/-- **The scores after a `ZADD`.** -/
theorem SetsRefine.add (refine_ : SetsRefine reg sets) (key : Bytes) (score : Int) (member : Bytes) :
    ∃ rc after, zedisZsetRegAdd reg key score member = some (rc, after) ∧
      (rc = -1 ∧ sets key member = none ∧ SetsRefine after sets ∨
        rc = 0 ∧ SetsRefine after (Function.update sets key
          (Function.update (sets key) member (some score)))) := by
  obtain ⟨index, inv, scores⟩ := refine_
  obtain ⟨found, fields, index', rc, after, ends, result, added, kept⟩ :=
    zedisZsetRegAdd_cases inv key score member
  refine ⟨rc, after, ends, ?_⟩
  obtain ⟨isFound, assigns⟩ := result.assigns
  cases added with
  | noIndex =>
    -- the key has no index, before and after
    have none : index key = none := by
      cases has : index key with
      | none => rfl
      | some i => rw [assigns.kept key i has] at isFound; cases isFound
    have same : ∀ other member', zedisZsetRegScore { reg with toKeyIndex := fields } other member' =
        zedisZsetRegScore reg other member' := by
      intro other member'
      rw [zedisZsetRegScore_eq kept, zedisZsetRegScore_eq inv]
      by_cases isKey : other = key
      · rw [isKey, none, ← isFound, Option.elim_none]
      · rw [assigns.others other isKey]
    have missing := scores key member
    rw [zedisZsetRegScore_eq inv, none, Option.elim_none, Option.some.injEq] at missing
    exact Or.inl ⟨rfl, missing.symm, index', kept, fun other member' => by
      rw [same, scores]⟩
  | onTree i t t' rc tree set added =>
    obtain ⟨t₂, set'⟩ := kept.trees i (by
      obtain ⟨below, used_le⟩ := result.found_lt inv.index
      exact below.trans_le used_le)
    have isTree : (⟨fields, Function.update reg.trees i tree⟩ : ZedisZsetRegistry).trees i = tree :=
      Function.update_self ..
    -- under its own key, the request is one on the tree
    have own : ∀ member', zedisZsetRegScore ⟨fields, Function.update reg.trees i tree⟩ key member' =
        zedisBtreeScore tree member' := fun member' => by
      rw [zedisZsetRegScore_eq kept, result.index_eq, Option.elim_some, isTree]
    have before : ∀ member', some (sets key member') = zedisBtreeScore (reg.trees i) member' :=
      fun member' => by rw [← scores, zedisZsetRegScore_before inv result]
    -- under another key, nothing has changed
    have others : ∀ other, other ≠ key → ∀ member',
        zedisZsetRegScore ⟨fields, Function.update reg.trees i tree⟩ other member' =
          some (sets other member') := by
      intro other differs member'
      rw [zedisZsetRegScore_eq kept, assigns.others other differs, ← scores, zedisZsetRegScore_eq inv]
      cases has : index other with
      | none => rfl
      | some j =>
        have apart : j ≠ i := fun same => differs (kept.index.apart other key j
          (assigns.kept other j has) (same ▸ result.index_eq))
        exact congrArg (zedisBtreeScore · member') (Function.update_of_ne apart _ _)
    rcases added.scores set (isTree ▸ set') with ⟨failed, isSame, missing⟩ | ⟨done, stored, rest⟩
    · rw [← before, Option.some.injEq] at missing
      refine Or.inl ⟨failed, missing, index', kept, fun other member' => ?_⟩
      by_cases isKey : other = key
      · rw [isKey, own, isSame, before]
      · exact others other isKey member'
    · refine Or.inr ⟨done, index', kept, fun other member' => ?_⟩
      by_cases isKey : other = key
      · rw [isKey, own, Function.update_self]
        by_cases isMember : member' = member
        · rw [isMember, Function.update_self]
          exact stored
        · rw [Function.update_of_ne isMember, before]
          exact rest member' isMember
      · rw [Function.update_of_ne isKey]
        exact others other isKey member'

/-- The members of a tree, in the order of the walk. -/
theorem arranged_membersOf {tree : ZedisBtree} {t : ScoreTrees} (inv : SetInv tree t)
    {set : Bytes → Option Int} (scores : ∀ member, zedisBtreeScore tree member = some (set member)) :
    Arranged set (membersOf tree) := by
  have entry : ∀ e ∈ t.entries, e.2 < tree.memberCount ∧ e.1 = (tree.members e.2).score :=
    fun e member => mem_memberEntries.mp (inv.built.entries.mem_iff.mp member)
  have scored : ∀ e ∈ t.entries, set (tree.members e.2).data = some e.1 := fun e member => by
    obtain ⟨below, isScore⟩ := entry e member
    have found := inv.score below (show tree.members e.2 = ⟨(tree.members e.2).data, e.1⟩ by
      rw [isScore])
    rwa [scores, Option.some.injEq] at found
  have items : membersOf tree = t.entries.map fun e => (tree.members e.2).data := by
    rw [membersOf, inv.treeOf_eq.2, Option.getD_some, List.map_map]
    rfl
  rw [items]
  refine ⟨?_, fun member => ?_, ?_⟩
  · -- different entries have different indices, which have different names
    have indices : (t.entries.map Prod.snd).Nodup := by
      rw [(inv.built.entries.map Prod.snd).nodup_iff, memberEntries, cells, List.map_map]
      exact List.Nodup.map_on (fun i _ j _ same => same) List.nodup_range
    have names : ((t.entries.map Prod.snd).map fun i => (tree.members i).data).Nodup := by
      refine List.Nodup.map_on (fun i isIndex j isIndex' same => ?_) indices
      obtain ⟨e, member, rfl⟩ := List.mem_map.mp isIndex
      obtain ⟨e', member', rfl⟩ := List.mem_map.mp isIndex'
      exact inv.distinct _ (entry e member).1 _ (entry e' member').1 same
    rw [List.map_map] at names
    exact names
  · rw [List.mem_map, Option.ne_none_iff_exists']
    constructor
    · rintro ⟨e, present, rfl⟩
      exact ⟨_, scored e present⟩
    · rintro ⟨score, isScore⟩
      obtain ⟨i, below, holds⟩ := inv.score_eq_some_iff.mp ((scores member).trans
        (congrArg some isScore))
      refine ⟨(score, i), inv.built.entries.mem_iff.mpr (mem_memberEntries.mpr ⟨below, ?_⟩), ?_⟩
      · rw [holds]
      · rw [holds]
  · have keys : (t.entries.map Prod.fst).Pairwise (· ≤ ·) := by
      refine inv.built.sorted.sublist ?_
      cases t with
      | empty => exact List.Sublist.refl _
      | root h t => exact LeafTree.keys_sublist_tokens h t
    rw [List.pairwise_map] at keys ⊢
    refine keys.imp_of_mem fun {e e'} member member' le score score' isScore isScore' => ?_
    rw [scored e member, Option.some.injEq] at isScore
    rw [scored e' member', Option.some.injEq] at isScore'
    rw [← isScore, ← isScore']
    exact le

/-- **What a `ZRANGE` reads.** -/
theorem SetsRefine.items (refine_ : SetsRefine reg sets) (key : Bytes) :
    Arranged (sets key) (zsetItems reg key) := by
  obtain ⟨index, inv, scores⟩ := refine_
  unfold zsetItems
  rw [lookupIndex_eq inv.index]
  cases has : index key with
  | none =>
    have missing : ∀ member, sets key member = none := fun member => by
      have score := scores key member
      rwa [zedisZsetRegScore_eq inv, has, Option.elim_none, Option.some.injEq, eq_comm] at score
    refine ⟨List.nodup_nil, fun member => ?_, List.Pairwise.nil⟩
    rw [missing]
    exact iff_of_false List.not_mem_nil (not_not.mpr rfl)
  | some i =>
    obtain ⟨t, set⟩ := inv.trees i (inv.below has)
    refine arranged_membersOf set fun member => ?_
    rw [← scores, zedisZsetRegScore_eq inv, has, Option.elim_some]

theorem SetsRefine.start {arena arena' : Arena.ZedisArena} {maxZsets maxMembers : UInt32}
    (made : zedisZsetRegInit arena maxZsets maxMembers = some (reg, arena')) :
    SetsRefine reg fun _ _ => none :=
  ⟨_, zedisZsetRegInit_inv made, fun key member => by
    rw [zedisZsetRegScore_eq (zedisZsetRegInit_inv made), Option.elim_none]⟩

end Sets

/-! ### Lists -/

/-- The registry and the log hold the lists: `written` are the records of each index. -/
structure ListsRefine (reg : ZedisListRegistry) (log : ZedisAppendLog) (lists : Bytes → List Bytes) :
    Prop where
  held : ∃ (index : Bytes → Option Nat) (written : Written), IndexOk reg.toKeyIndex index ∧
    (∀ i, ListOk log (reg.lists i) (written i)) ∧ (∀ i, reg.used ≤ i → written i = []) ∧
    ∀ key, lists key = (index key).elim [] fun i => (written i).map Prod.snd
  inside : log.writePos ≤ log.capacity
  small : log.capacity < 2 ^ 32

section Lists

variable {reg : ZedisListRegistry} {log : ZedisAppendLog} {lists : Bytes → List Bytes}

/-- An accepted push to a log of less than `2 ^ 32` bytes is below `ZEDIS_AOL_NO_PREV`. -/
theorem ListsRefine.open32 (refine_ : ListsRefine reg log lists) {key val : Bytes}
    (accepted : AppendLog.Accepted log key val) : log.writePos < zedisAolNoPrev := by
  have ok : SharedOk log.capacity ⟨log, fun _ => emptyList⟩ fun _ => [] :=
    ⟨rfl, refine_.inside, fun _ => ⟨rfl, rfl, rfl, Nat.zero_le _⟩⟩
  exact ok.open32 refine_.small accepted

/-- **The lists after an `LPUSH`.** -/
theorem ListsRefine.push (refine_ : ListsRefine reg log lists) (key val : Bytes) :
    ∃ rc after log', zedisListRegLpush reg log key val = some (rc, after, log') ∧
      (rc = -1 ∧ ListsRefine after log' lists ∨
        rc = 0 ∧ ListsRefine after log' (Function.update lists key (val :: lists key))) := by
  obtain ⟨index, written, ok, lists_ok, unused, holds⟩ := refine_.held
  obtain ⟨found, fields, index', rc, after, log', ends, result, ok', sameFields, outcome⟩ :=
    zedisListRegLpush_cases ok log key val
  obtain ⟨isFound, assigns⟩ := result.assigns
  obtain ⟨-, used_le⟩ := result.sizes
  rw [← sameFields] at used_le
  refine ⟨rc, after, log', ends, ?_⟩
  -- the records under the key, whether it had its index before or not
  have records : ∀ i, index' key = some i → lists key = (written i).map Prod.snd := by
    intro i has
    rw [holds]
    cases result with
    | found j _ => rw [has, Option.elim_some]
    | full none _ => rw [none] at has; cases has
    | burned none _ _ => rw [none] at has; cases has
    | assigned keys none _ _ =>
      rw [Function.update_self, Option.some.injEq] at has
      rw [none, ← has, unused _ le_rfl]
      rfl
  rcases outcome with ⟨failed, sameLists, sameLog, -⟩ | ⟨i, done, foundAt, accepted, changed, appended⟩
  · refine Or.inl ⟨failed, ⟨index', written, ok', ?_, ?_, fun other => ?_⟩, ?_, ?_⟩
    · rw [sameLists, sameLog]
      exact lists_ok
    · exact fun i above => unused i (used_le.trans above)
    · by_cases isKey : other = key
      · rw [isKey]
        cases has : index' key with
        | some i => exact records i has
        | none =>
          cases had : index key with
          | some i => rw [assigns.kept key i had] at has; cases has
          | none => rw [holds, had]
      · rw [holds, assigns.others other isKey]
    · rw [sameLog]
      exact refine_.inside
    · rw [sameLog]
      exact refine_.small
  · have has : index' key = some i := isFound.symm.trans foundAt
    have open32 := refine_.open32 accepted
    refine Or.inr ⟨done, ⟨index', Function.update written i ((log.writePos, val) :: written i), ok', ?_,
      ?_, fun other => ?_⟩, ?_, ?_⟩
    · intro j
      rw [changed, appended]
      exact listsOk_push lists_ok i accepted open32 j
    · intro j above
      have below := ok'.below key i has
      rw [Function.update_of_ne (below.trans_le above).ne']
      exact unused j (used_le.trans above)
    · by_cases isKey : other = key
      · rw [isKey, Function.update_self, has, Option.elim_some, Function.update_self, records i has]
        rfl
      · rw [Function.update_of_ne isKey, holds, assigns.others other isKey]
        cases had : index other with
        | none => rfl
        | some j =>
          have apart : j ≠ i := fun same => isKey
            (ok'.apart other key j (assigns.kept other j had) (same ▸ has))
          rw [Option.elim_some, Option.elim_some, Function.update_of_ne apart]
    · rw [appended]
      exact accepted.room
    · rw [appended]
      exact refine_.small

/-- **What `LLEN` and `LRANGE` read.** -/
theorem ListsRefine.reads (refine_ : ListsRefine reg log lists) (key : Bytes) :
    zedisListRegLlen reg key = some (lists key).length ∧
      listItems reg log key = (lists key).take 1024 ∧ (lists key).length < 2 ^ 32 := by
  obtain ⟨index, written, ok, lists_ok, -, holds⟩ := refine_.held
  unfold zedisListRegLlen listItems
  rw [lookupIndex_eq ok, holds]
  cases has : index key with
  | none =>
    rw [Option.elim_none]
    exact ⟨rfl, rfl, by decide⟩
  | some i =>
    have few := (lists_ok i).small
    have inside := refine_.inside
    have small := refine_.small
    rw [Option.elim_some, List.length_map]
    refine ⟨congrArg some (lists_ok i).count, valuesOf_of_listOk inside (lists_ok i), by omega⟩

theorem ListsRefine.start {arena arena' : Arena.ZedisArena} {maxLists : UInt32} {capacity : Nat}
    {mapped : Option (Nat → UInt8)} (made : zedisListRegInit arena maxLists = some (reg, arena'))
    (opened : zedisAolInit mapped capacity = some log) (small : capacity < 2 ^ 32) :
    ListsRefine reg log fun _ => [] := by
  obtain ⟨ok, empty⟩ := zedisListRegInit_spec made
  have shared := SharedOk.start opened
  refine ⟨⟨_, fun _ => [], ok, fun i => ?_, fun _ _ => rfl, fun _ => rfl⟩, ?_, ?_⟩
  · rw [empty]
    exact shared.lists i
  · rw [shared.capacity_eq]
    exact shared.inside
  · rw [shared.capacity_eq]
    exact small

end Lists

/-! ### The order book -/

/-- The book holds the quantities. -/
structure BookRefine (limits : Limits) (book : ZedisOrderBook) (quantities : Side → Int → Int) :
    Prop where
  inv : BookInv book
  priceMin : book.priceMin = limits.priceMin
  priceMax : book.priceMax = limits.priceMax
  holds : ∀ side price level, zedisBookLevel book price = some level →
    quantity side level = quantities side price

section Book

variable {limits : Limits} {book : ZedisOrderBook} {quantities : Side → Int → Int}

theorem BookRefine.hasLevel_iff (refine_ : BookRefine limits book quantities) (price : Int) :
    limits.HasLevel price ↔ OrderBook.HasLevel book price := by
  rw [Limits.HasLevel, OrderBook.HasLevel, refine_.priceMin, refine_.priceMax]

/-- **An order whose sum does not overflow.** -/
theorem BookRefine.place (refine_ : BookRefine limits book quantities) {order : Order}
    (fits : NoOverflow book order) :
    (¬ limits.HasLevel order.price ∧ OrderBook.place book order.side order.price order.qty = none) ∨
      limits.HasLevel order.price ∧ ∃ after,
        OrderBook.place book order.side order.price order.qty = some after ∧
        BookRefine limits after (Function.update quantities order.side
          (Function.update (quantities order.side) order.price
            (max 0 (quantities order.side order.price + order.qty)))) := by
  have bounds := refine_.inv.bounds
  rw [refine_.hasLevel_iff]
  by_cases has : OrderBook.HasLevel book order.price
  · refine Or.inr ⟨has, ?_⟩
    cases placed : OrderBook.place book order.side order.price order.qty with
    | none =>
      rw [place_eq, changeLevel_eq bounds, if_pos has] at placed
      cases placed
    | some after =>
      have taken : bookStep book order = some after := by rw [bookStep, placed, Option.getD_some]
      have changed := placed
      rw [place_eq] at changed
      obtain ⟨-, isAfter⟩ := changeLevel_eq_some bounds changed
      refine ⟨after, rfl, refine_.inv.step taken, ?_, ?_, fun side price level reported => ?_⟩
      · rw [isAfter]
        exact refine_.priceMin
      · rw [isAfter]
        exact refine_.priceMax
      · obtain ⟨old, was, ⟨rfl, rfl, isSum⟩ | ⟨elsewhere, kept⟩⟩ :=
          bookStep_quantity bounds taken reported side
        · rw [isSum, Function.update_self, Function.update_self, ← refine_.holds _ _ old was]
          exact (addQty_eq_max_iff (refine_.inv.nonneg _ _ old was) (refine_.inv.small _ _ old was)
            order.low order.high).mpr (fits old was)
        · rw [kept, refine_.holds side price old was]
          by_cases sameSide : side = order.side
          · have otherPrice : price ≠ order.price := fun same => elsewhere ⟨sameSide.symm, same.symm⟩
            rw [sameSide, Function.update_self, Function.update_of_ne otherPrice]
          · rw [Function.update_of_ne sameSide]
  · refine Or.inl ⟨has, ?_⟩
    rw [place_eq, changeLevel_eq bounds, if_neg has]

/-- **What `BOOK` reads.** -/
theorem BookRefine.level (refine_ : BookRefine limits book quantities) (price : Int) :
    (¬ limits.HasLevel price ∧ zedisBookLevel book price = none) ∨
      limits.HasLevel price ∧ ∃ level, zedisBookLevel book price = some level ∧
        wrap64 level.bidQty = quantities .bid price ∧ wrap64 level.askQty = quantities .ask price := by
  rw [refine_.hasLevel_iff, zedisBookLevel_eq refine_.inv.bounds]
  by_cases has : OrderBook.HasLevel book price
  · rw [if_pos has]
    have found : zedisBookLevel book price = some (book.levels (levelIndex book price)) := by
      rw [zedisBookLevel_eq refine_.inv.bounds, if_pos has]
    -- the quantities are in the range of an `int64_t`
    have exact_ : ∀ side, wrap64 (quantity side (book.levels (levelIndex book price))) =
        quantities side price := by
      intro side
      have nonneg := refine_.inv.nonneg side price _ found
      have small := refine_.inv.small side price _ found
      rw [wrap64_of_range (by omega) small, refine_.holds side price _ found]
    exact Or.inr ⟨has, _, rfl, exact_ .bid, exact_ .ask⟩
  · rw [if_neg has]
    exact Or.inl ⟨has, rfl⟩

theorem BookRefine.start {arena arena' : Arena.ZedisArena} (low : -2 ^ 31 ≤ limits.priceMin)
    (high : limits.priceMax < 2 ^ 31)
    (made : zedisBookInit arena limits.priceMin limits.priceMax = some (book, arena')) :
    BookRefine limits book fun _ _ => 0 := by
  obtain ⟨bounds, empty⟩ := zedisBookInit_empty low high made
  obtain ⟨isMin, isMax, -⟩ := zedisBookInit_eq made
  refine ⟨⟨bounds, fun side price level found => ?_, fun side price level found => ?_⟩, isMin, isMax,
    empty⟩
  · rw [empty side price level found]
  · rw [empty side price level found]
    decide

end Book

/-! ### The server -/

/-- **The server holds the store.** -/
structure Refines (limits : Limits) (server : ZedisServer) (store : Store) : Prop where
  strings : StringsRefine limits server.kv store.strings
  sets : SetsRefine server.zsets store.sets
  scores : ∀ key member score, store.sets key member = some score → IsInt64 score
  lists : ListsRefine server.lists server.log store.lists
  book : BookRefine limits server.book store.book

end Zedis.Server

/-
**Keys do not disturb each other.**

In every state that requests reach from fresh registries the keys have indices of their own, below
`used`, and a request keeps them (`registries_apart`). So it changes the tree or the list head of its
own key only, and no score, range or length of another key.

A range of a list also reads the log, from the 32-bit `head_off` of the list on. As long as pushes are
accepted at positions below `ZEDIS_AOL_NO_PREV` only, the chains of the lists are their records
(`AppendLog.ListOk`), and what a request appends is above them (`registry_isolation`). Past `2 ^ 32`
bytes `head_off` is cut and points into the data of an old record: the chain of a list is then what
the bytes there say, and it can lead to where the next record will be written
(`push_changes_other_range`).
-/

import Zedis.AppendLog.Chain
import Zedis.Registry.Index

namespace Zedis.Registry

open Zedis.Lib Zedis.Arena Zedis.Reply Zedis.HashTable Zedis.BTree Zedis.AppendLog

/-- **Each key has an index of its own**, below `used`. -/
structure OwnIndices (reg : KeyIndex) : Prop where
  used_le : reg.used ≤ reg.max
  below : ∀ key i, lookupIndex reg.keys key = some (some i) → i < reg.used
  apart : ∀ key key' i, lookupIndex reg.keys key = some (some i) →
    lookupIndex reg.keys key' = some (some i) → key = key'

/-- A key that has an index keeps it. -/
def KeepsIndices (reg after : KeyIndex) : Prop :=
  ∀ key i, lookupIndex reg.keys key = some (some i) → lookupIndex after.keys key = some (some i)

/-- What the two states store for a key, except in the log, is the same to every read. -/
structure SameReads (s next : Registries) (key : Bytes) : Prop where
  score : ∀ member, zedisZsetRegScore next.zsets key member = zedisZsetRegScore s.zsets key member
  range : ∀ start stop replyCap, zedisZsetRegRange next.zsets key start stop replyCap =
    zedisZsetRegRange s.zsets key start stop replyCap
  llen : zedisListRegLlen next.lists key = zedisListRegLlen s.lists key

/-- Registries just initialised, and a log. -/
def Fresh (s : Registries) : Prop :=
  ∃ zarena zarena' larena larena' maxZsets maxMembers maxLists mapped capacity,
    zedisZsetRegInit zarena maxZsets maxMembers = some (s.zsets, zarena') ∧
      zedisListRegInit larena maxLists = some (s.lists, larena') ∧
        zedisAolInit mapped capacity = some s.log

/-- The states that requests meeting `ok` reach. -/
def ReachableBy (ok : Registries → RegRequest → Prop) (s : Registries) : Prop :=
  ∃ start ops, Fresh start ∧ Run regStep ok start ops s

/-- The condition on a request: a push that fits the log is made at a position that `head_off` can
hold and that is not the mark of the end. -/
def Uncut (s : Registries) : RegRequest → Prop
  | .add _ _ _ => True
  | .lpush key val => Accepted s.log key val → s.log.writePos < zedisAolNoPrev

instance (s : Registries) (op : RegRequest) : Decidable (Uncut s op) :=
  match op with
  | .add _ _ _ => inferInstanceAs (Decidable True)
  | .lpush key val =>
    inferInstanceAs (Decidable (Accepted s.log key val → s.log.writePos < zedisAolNoPrev))

/-! ### One request -/

section Request

/-- What a request leaves of the lists and the log, `index` being the indices after it. -/
def Pushes (s next : Registries) (op : RegRequest) (index : Bytes → Option Nat) : Prop :=
  (next.lists.lists = s.lists.lists ∧ next.log = s.log) ∨
    ∃ key val i, op = .lpush key val ∧ index key = some i ∧ Accepted s.log key val ∧
      next.lists.lists = Function.update s.lists.lists i (pushedList s.log (s.lists.lists i)) ∧
        next.log = pushedLog s.log (s.lists.lists i) key val

theorem zedisZsetRegAdd_spec {reg after : ZedisZsetRegistry} {index : Bytes → Option Nat}
    {key member : Bytes} {score rc : Int} (ok : IndexOk reg.toKeyIndex index)
    (taken : zedisZsetRegAdd reg key score member = some (rc, after)) :
    ∃ index', IndexOk after.toKeyIndex index' ∧ Assigns key index index' ∧
      ∀ i, index' key ≠ some i → after.trees i = reg.trees i := by
  obtain ⟨fields, index', found, ok', assigns⟩ := indexForKey_spec ok key
  unfold zedisZsetRegAdd zsetIndexForKey at taken
  rw [found, Option.map_some, Option.bind_some] at taken
  cases has : index' key with
  | none =>
    rw [has] at taken
    cases taken
    exact ⟨index', ok', assigns, fun _ _ => rfl⟩
  | some idx =>
    rw [has] at taken
    obtain ⟨⟨rc, tree⟩, -, same⟩ := Option.map_eq_some_iff.mp taken
    cases same
    refine ⟨index', ok', assigns, fun i other => Function.update_of_ne (fun same => ?_) _ _⟩
    exact other (has.trans (congrArg some same.symm))

/-- **Everything an `LPUSH` can do**, and the indices after it. -/
theorem zedisListRegLpush_cases {reg : ZedisListRegistry} {index : Bytes → Option Nat}
    (ok : IndexOk reg.toKeyIndex index) (log : ZedisAppendLog) (key val : Bytes) :
    ∃ found fields index' rc after log',
      zedisListRegLpush reg log key val = some (rc, after, log') ∧
      IndexResult reg.toKeyIndex index key found fields index' ∧ IndexOk after.toKeyIndex index' ∧
      after.toKeyIndex = fields ∧
      (rc = -1 ∧ after.lists = reg.lists ∧ log' = log ∧ (found = none ∨ ¬ Accepted log key val) ∨
        ∃ i, rc = 0 ∧ found = some i ∧ Accepted log key val ∧
          after.lists = Function.update reg.lists i (pushedList log (reg.lists i)) ∧
          log' = pushedLog log (reg.lists i) key val) := by
  obtain ⟨found, fields, index', search, result, ok'⟩ := indexForKey_cases ok key
  unfold zedisListRegLpush listIndexForKey
  rw [search, Option.map_some, Option.map_some]
  cases found with
  | none =>
    exact ⟨none, fields, index', -1, _, log, rfl, result, ok', rfl, Or.inl ⟨rfl, rfl, rfl, Or.inl rfl⟩⟩
  | some i =>
    rcases zedisAolLpush_cases log (reg.lists i) key val with ⟨refused, ends⟩ | ⟨accepted, ends⟩
    · refine ⟨some i, fields, index', -1, ⟨fields, Function.update reg.lists i (reg.lists i)⟩, log, ?_,
        result, ok', rfl, Or.inl ⟨rfl, Function.update_eq_self i reg.lists, rfl, Or.inr refused⟩⟩
      simp only [ends]
    · refine ⟨some i, fields, index', 0,
        ⟨fields, Function.update reg.lists i (pushedList log (reg.lists i))⟩, _, ?_, result, ok', rfl,
        Or.inr ⟨i, rfl, rfl, accepted, rfl, rfl⟩⟩
      simp only [ends]

variable {s next : Registries} {zindex lindex : Bytes → Option Nat} {op : RegRequest}

theorem zedisListRegLpush_spec {key val : Bytes} (ok : IndexOk s.lists.toKeyIndex lindex)
    (taken : regStep s (.lpush key val) = some next) :
    ∃ index', IndexOk next.lists.toKeyIndex index' ∧ Assigns key lindex index' ∧
      Pushes s next (.lpush key val) index' := by
  obtain ⟨found, fields, index', rc, after, log, pushed, result, ok', -, cases⟩ :=
    zedisListRegLpush_cases ok s.log key val
  rw [regStep, pushed] at taken
  cases taken
  obtain ⟨same, assigns⟩ := result.assigns
  refine ⟨index', ok', assigns, ?_⟩
  rcases cases with ⟨-, lists, sameLog, -⟩ | ⟨i, -, isFound, accepted, lists, sameLog⟩
  · exact Or.inl ⟨lists, sameLog⟩
  · exact Or.inr ⟨key, val, i, rfl, same.symm.trans isFound, accepted, lists, sameLog⟩

/-- **Everything a request can do.** -/
theorem regStep_spec (zok : IndexOk s.zsets.toKeyIndex zindex)
    (lok : IndexOk s.lists.toKeyIndex lindex) (taken : regStep s op = some next) :
    ∃ zindex' lindex', IndexOk next.zsets.toKeyIndex zindex' ∧
      IndexOk next.lists.toKeyIndex lindex' ∧ Assigns op.key zindex zindex' ∧
      Assigns op.key lindex lindex' ∧
      (∀ i, zindex' op.key ≠ some i → next.zsets.trees i = s.zsets.trees i) ∧
      Pushes s next op lindex' := by
  cases op with
  | add key score member =>
    obtain ⟨⟨rc, after⟩, added, same⟩ := Option.map_eq_some_iff.mp taken
    cases same
    obtain ⟨zindex', zok', assigns, trees⟩ := zedisZsetRegAdd_spec zok added
    exact ⟨zindex', lindex, zok', lok, assigns, .refl _ _, trees, Or.inl ⟨rfl, rfl⟩⟩
  | lpush key val =>
    have zsets : next.zsets = s.zsets := by
      obtain ⟨result, -, same⟩ := Option.map_eq_some_iff.mp taken
      rw [← same]
    obtain ⟨lindex', lok', assigns, pushes⟩ := zedisListRegLpush_spec lok taken
    refine ⟨zindex, lindex', ?_, lok', .refl _ _, assigns, fun i _ => ?_, pushes⟩
    · rw [zsets]
      exact zok
    · rw [zsets]

theorem Pushes.lists (pushes : Pushes s next op lindex) {i : Nat} (other : lindex op.key ≠ some i) :
    next.lists.lists i = s.lists.lists i := by
  rcases pushes with ⟨lists, -⟩ | ⟨key, val, idx, rfl, has, -, lists, -⟩
  · rw [lists]
  · rw [lists]
    exact Function.update_of_ne (fun same => other (has.trans (congrArg some same.symm))) _ _

/-- No request changes a byte below `write_pos`. -/
theorem Pushes.log (pushes : Pushes s next op lindex) : next.log.capacity = s.log.capacity ∧
    ∀ i < s.log.writePos, next.log.base i = s.log.base i := by
  rcases pushes with ⟨-, log⟩ | ⟨key, val, idx, -, -, -, -, log⟩
  · rw [log]
    exact ⟨rfl, fun _ _ => rfl⟩
  · rw [log]
    exact ⟨rfl, fun i below => writeRecord_below _ _ _ _ _ below⟩

end Request

/-! ### Indices and what is stored at them -/

section Kept

variable {reg after : KeyIndex} {index index' : Bytes → Option Nat} {key other : Bytes}

theorem IndexOk.own (ok : IndexOk reg index) : OwnIndices reg where
  used_le := ok.used_le
  below := fun key i found => ok.below key i (Option.some.inj ((lookupIndex_eq ok key).symm.trans found))
  apart := fun key key' i found found' =>
    ok.apart key key' i (Option.some.inj ((lookupIndex_eq ok key).symm.trans found))
      (Option.some.inj ((lookupIndex_eq ok key').symm.trans found'))

theorem Assigns.keeps (assigns : Assigns key index index') (ok : IndexOk reg index)
    (ok' : IndexOk after index') : KeepsIndices reg after := by
  intro other i found
  rw [lookupIndex_eq ok, Option.some.injEq] at found
  rw [lookupIndex_eq ok', assigns.kept other i found]

/-- What is stored at the index of another key. -/
theorem Assigns.elsewhere (assigns : Assigns key index index') (ok : IndexOk reg index)
    (ok' : IndexOk after index') (differs : other ≠ key) :
    lookupIndex after.keys other = lookupIndex reg.keys other ∧
      ∀ i, lookupIndex reg.keys other = some (some i) → index' key ≠ some i := by
  rw [lookupIndex_eq ok, lookupIndex_eq ok', assigns.others other differs]
  refine ⟨rfl, fun i found has => differs ?_⟩
  refine ok'.apart other key i ?_ has
  rw [assigns.others other differs]
  exact Option.some.inj found

variable {s next : Registries} {op : RegRequest} {zindex lindex zindex' lindex' : Bytes → Option Nat}

theorem zset_reads (same : lookupIndex next.zsets.keys other = lookupIndex s.zsets.keys other)
    (trees : ∀ i, lookupIndex s.zsets.keys other = some (some i) →
      next.zsets.trees i = s.zsets.trees i) :
    (∀ member, zedisZsetRegScore next.zsets other member = zedisZsetRegScore s.zsets other member) ∧
      ∀ start stop replyCap, zedisZsetRegRange next.zsets other start stop replyCap =
        zedisZsetRegRange s.zsets other start stop replyCap := by
  unfold zedisZsetRegScore zedisZsetRegRange
  rw [same]
  cases found : lookupIndex s.zsets.keys other with
  | none => exact ⟨fun _ => rfl, fun _ _ _ => rfl⟩
  | some index =>
    cases index with
    | none => exact ⟨fun _ => rfl, fun _ _ _ => rfl⟩
    | some i =>
      simp only [Option.bind_some, trees i found]
      exact ⟨fun _ => trivial, fun _ _ _ => trivial⟩

theorem llen_reads (same : lookupIndex next.lists.keys other = lookupIndex s.lists.keys other)
    (lists : ∀ i, lookupIndex s.lists.keys other = some (some i) →
      next.lists.lists i = s.lists.lists i) :
    zedisListRegLlen next.lists other = zedisListRegLlen s.lists other := by
  unfold zedisListRegLlen
  rw [same]
  cases found : lookupIndex s.lists.keys other with
  | none => rfl
  | some index =>
    cases index with
    | none => rfl
    | some i => simp only [Option.map_some, lists i found]

/-- **A request on one key, read through another.** -/
theorem sameReads_of_step (zok : IndexOk s.zsets.toKeyIndex zindex)
    (lok : IndexOk s.lists.toKeyIndex lindex) (taken : regStep s op = some next)
    (differs : other ≠ op.key) : SameReads s next other := by
  obtain ⟨zindex', lindex', zok', lok', zassigns, lassigns, trees, pushes⟩ :=
    regStep_spec zok lok taken
  obtain ⟨zsame, zother⟩ := zassigns.elsewhere zok zok' differs
  obtain ⟨lsame, lother⟩ := lassigns.elsewhere lok lok' differs
  obtain ⟨score, range⟩ := zset_reads zsame fun i found => trees i (zother i found)
  exact ⟨score, range, llen_reads lsame fun i found => pushes.lists (lother i found)⟩

end Kept

/-! ### Whole runs -/

section Runs

variable {s next : Registries} {op : RegRequest}

/-- The keys of both registries have indices. -/
def Indexed (s : Registries) : Prop :=
  ∃ zindex lindex, IndexOk s.zsets.toKeyIndex zindex ∧ IndexOk s.lists.toKeyIndex lindex

theorem zedisZsetRegInit_spec {arena arena' : ZedisArena} {maxZsets maxMembers : UInt32}
    {reg : ZedisZsetRegistry} (made : zedisZsetRegInit arena maxZsets maxMembers = some (reg, arena')) :
    IndexOk reg.toKeyIndex fun _ => none := by
  unfold zedisZsetRegInit at made
  split at made
  · cases made
  · obtain ⟨⟨_, granted⟩, -, made⟩ := Option.bind_eq_some_iff.mp made
    obtain ⟨⟨trees, arena⟩, -, made⟩ := Option.bind_eq_some_iff.mp made
    obtain ⟨⟨keys, arena⟩, made, same⟩ := Option.map_eq_some_iff.mp made
    cases same
    exact .fresh made

theorem zedisListRegInit_spec {arena arena' : ZedisArena} {maxLists : UInt32}
    {reg : ZedisListRegistry} (made : zedisListRegInit arena maxLists = some (reg, arena')) :
    IndexOk reg.toKeyIndex (fun _ => none) ∧ reg.lists = fun _ => emptyList := by
  unfold zedisListRegInit at made
  split at made
  · cases made
  · obtain ⟨⟨_, granted⟩, -, made⟩ := Option.bind_eq_some_iff.mp made
    obtain ⟨⟨keys, arena⟩, made, same⟩ := Option.map_eq_some_iff.mp made
    cases same
    exact ⟨.fresh made, rfl⟩

theorem Fresh.indexed (fresh : Fresh s) : Indexed s := by
  obtain ⟨_, _, _, _, _, _, _, _, _, zmade, lmade, -⟩ := fresh
  exact ⟨_, _, zedisZsetRegInit_spec zmade, (zedisListRegInit_spec lmade).1⟩

theorem Fresh.lists_empty (fresh : Fresh s) : s.lists.lists = fun _ => emptyList := by
  obtain ⟨_, _, _, _, _, _, _, _, _, -, lmade, -⟩ := fresh
  exact (zedisListRegInit_spec lmade).2

theorem Indexed.step (indexed : Indexed s) (taken : regStep s op = some next) : Indexed next := by
  obtain ⟨zindex, lindex, zok, lok⟩ := indexed
  obtain ⟨zindex', lindex', zok', lok', -⟩ := regStep_spec zok lok taken
  exact ⟨zindex', lindex', zok', lok'⟩

theorem ReachableBy.indexed {ok : Registries → RegRequest → Prop} (reach : ReachableBy ok s) :
    Indexed s := by
  obtain ⟨start, ops, fresh, run⟩ := reach
  exact run.invariant Indexed (fun _ _ _ indexed _ taken => indexed.step taken) fresh.indexed

/-- **Indices, scores and lengths of different keys are apart** in every reachable state. -/
theorem registries_apart {ok : Registries → RegRequest → Prop} (reach : ReachableBy ok s) :
    OwnIndices s.zsets.toKeyIndex ∧ OwnIndices s.lists.toKeyIndex ∧
      ∀ op next, regStep s op = some next →
        KeepsIndices s.zsets.toKeyIndex next.zsets.toKeyIndex ∧
        KeepsIndices s.lists.toKeyIndex next.lists.toKeyIndex ∧
        ∀ key, key ≠ op.key → SameReads s next key := by
  obtain ⟨zindex, lindex, zok, lok⟩ := reach.indexed
  refine ⟨zok.own, lok.own, fun op next taken => ?_⟩
  obtain ⟨zindex', lindex', zok', lok', zassigns, lassigns, -⟩ := regStep_spec zok lok taken
  exact ⟨zassigns.keeps zok zok', lassigns.keeps lok lok', fun key differs =>
    sameReads_of_step zok lok taken differs⟩

/-- Every list is the chain of its records. -/
def ChainsOk (s : Registries) : Prop :=
  ∃ written : Written, ∀ i, ListOk s.log (s.lists.lists i) (written i)

theorem ChainsOk.step (chains : ChainsOk s) (indexed : Indexed s) (uncut : Uncut s op)
    (taken : regStep s op = some next) : ChainsOk next := by
  obtain ⟨zindex, lindex, zok, lok⟩ := indexed
  obtain ⟨_, _, -, -, -, -, -, pushes⟩ := regStep_spec zok lok taken
  obtain ⟨written, chains⟩ := chains
  rcases pushes with ⟨lists, log⟩ | ⟨key, val, i, rfl, -, accepted, lists, log⟩
  · rw [ChainsOk, lists, log]
    exact ⟨written, chains⟩
  · rw [ChainsOk, lists, log]
    exact ⟨_, listsOk_push chains i accepted (uncut accepted)⟩

theorem ReachableBy.chainsOk (reach : ReachableBy Uncut s) : ChainsOk s := by
  obtain ⟨start, ops, fresh, run⟩ := reach
  have kept := run.invariant (fun s => Indexed s ∧ ChainsOk s)
    (fun _ _ _ inv uncut taken => ⟨inv.1.step taken, inv.2.step inv.1 uncut taken⟩)
    ⟨fresh.indexed, fun _ => [], fun i => by
      rw [fresh.lists_empty]
      exact ⟨rfl, rfl, rfl, Nat.zero_le _⟩⟩
  exact kept.2

/-- **A request on one key keeps what every read of another key returns**, if no push before it was
accepted at a position that `head_off` cannot hold. -/
theorem registry_isolation (reach : ReachableBy Uncut s) :
    OwnIndices s.zsets.toKeyIndex ∧ OwnIndices s.lists.toKeyIndex ∧
      ∀ op next, regStep s op = some next →
        KeepsIndices s.zsets.toKeyIndex next.zsets.toKeyIndex ∧
        KeepsIndices s.lists.toKeyIndex next.lists.toKeyIndex ∧
        ∀ key, key ≠ op.key → SameReads s next key ∧
          ∀ start stop replyCap, zedisListRegLrange next.lists next.log key start stop replyCap =
            zedisListRegLrange s.lists s.log key start stop replyCap := by
  obtain ⟨zown, lown, steps⟩ := registries_apart reach
  obtain ⟨zindex, lindex, zok, lok⟩ := reach.indexed
  obtain ⟨written, chains⟩ := reach.chainsOk
  refine ⟨zown, lown, fun op next taken => ?_⟩
  obtain ⟨zkeeps, lkeeps, same⟩ := steps op next taken
  refine ⟨zkeeps, lkeeps, fun key differs => ⟨same key differs, fun start stop replyCap => ?_⟩⟩
  obtain ⟨_, lindex', -, lok', -, assigns, -, pushes⟩ := regStep_spec zok lok taken
  obtain ⟨lsame, lother⟩ := assigns.elsewhere lok lok' differs
  obtain ⟨capacity_eq, below⟩ := pushes.log
  unfold zedisListRegLrange
  rw [lsame]
  cases found : lookupIndex s.lists.keys key with
  | none => rfl
  | some index =>
    cases index with
    | none => rfl
    | some i =>
      simp only [Option.map_some, pushes.lists (lother i found)]
      rw [zedisAolLrange_frame below capacity_eq (chains i).visits]

end Runs

/-- One sorted set, two lists and a zeroed log. -/
def sampleRegistries (capacity : Nat) : Option Registries :=
  (zedisZsetRegInit ⟨2 ^ 20, 0⟩ 1 1).bind fun (zsets, _) =>
    (zedisListRegInit ⟨2 ^ 20, 0⟩ 2).bind fun (lists, _) =>
      (zedisAolInit (some fun _ => 0) capacity).map fun log => ⟨zsets, lists, log⟩

theorem sampleRegistries_fresh {capacity : Nat} {s : Registries}
    (made : sampleRegistries capacity = some s) : Fresh s := by
  obtain ⟨⟨zsets, zarena⟩, zmade, made⟩ := Option.bind_eq_some_iff.mp made
  obtain ⟨⟨lists, larena⟩, lmade, made⟩ := Option.bind_eq_some_iff.mp made
  obtain ⟨log, logMade, rfl⟩ := Option.map_eq_some_iff.mp made
  exact ⟨_, _, _, _, _, _, _, _, _, zmade, lmade, logMade⟩

theorem sampleRegistries_log {capacity : Nat} {s : Registries}
    (made : sampleRegistries capacity = some s) : s.log = ⟨fun _ => 0, capacity, 0⟩ := by
  obtain ⟨⟨zsets, zarena⟩, -, made⟩ := Option.bind_eq_some_iff.mp made
  obtain ⟨⟨lists, larena⟩, -, made⟩ := Option.bind_eq_some_iff.mp made
  obtain ⟨log, logMade, rfl⟩ := Option.map_eq_some_iff.mp made
  unfold zedisAolInit at logMade
  split at logMade
  · cases logMade
  · exact (Option.some.inj logMade).symm

/-- A score and two lists: a push to the one keeps the other. -/
theorem registry_isolation_two : ∃ s next, ReachableBy Uncut s ∧
    regStep s (.lpush [97] [3]) = some next ∧
      zedisListRegLrange next.lists next.log [98] 0 (-1) 64 =
        zedisListRegLrange s.lists s.log [98] 0 (-1) 64 := by
  obtain ⟨next, returned⟩ := Option.isSome_iff_exists.mp
    (show ((sampleRegistries 4096).bind fun start =>
      (replay (fun s op => if Uncut s op then regStep s op else none) start
        [.add [97] 5 [109], .lpush [97] [1], .lpush [98] [2]]).bind fun s =>
          regStep s (.lpush [97] [3])).isSome by decide +kernel)
  obtain ⟨start, made, returned⟩ := Option.bind_eq_some_iff.mp returned
  obtain ⟨s, played, taken⟩ := Option.bind_eq_some_iff.mp returned
  have reach : ReachableBy Uncut s := ⟨start, _, sampleRegistries_fresh made, Run.of_guarded played⟩
  refine ⟨s, next, reach, taken, ?_⟩
  exact (((registry_isolation reach).2.2 _ _ taken).2.2 [98] (by decide)).2 0 (-1) 64

/-! ### A log of more than `2 ^ 32` bytes

The first `2 ^ 23` pushes to the list `a` fill the log up to `2 ^ 32` with records of `512` bytes, each
of which has a header of its own making at its offset `16`. The next push to `b` is made at
`2 ^ 32 + 16`, so its `head_off` is `16`: the chain of `b` starts at the header that the data of the
first record of `a` contain, and goes on to that in the last one. The value there is a byte above
`write_pos`. -/

section LongLog

/-- A header with the value one byte long and `608` bytes further on. -/
def fakeHeader : Bytes := leBytes 4 (2 ^ 32 - 496) ++ leBytes 2 600 ++ leBytes 2 1

/-- The value of the records of `512` bytes. -/
def crafted : Bytes := List.replicate 7 65 ++ fakeHeader ++ List.replicate 488 65

theorem length_crafted : crafted.length = 503 := by decide +kernel

theorem size_crafted : recordSize [(97 : UInt8)].length crafted.length = 512 := by
  rw [length_crafted]
  rfl

theorem crafted_accepted {log : ZedisAppendLog}
    (room : (log.writePos + 512) % sizeMod ≤ log.capacity) : Accepted log [97] crafted := by
  refine ⟨by decide, by decide, ?_, ?_, ?_⟩
  · rw [length_crafted]
    decide
  · rw [length_crafted]
    decide
  · rw [size_crafted]
    exact room

theorem hdr_crafted {log : ZedisAppendLog} {pos : Nat} (stored : segment log.base pos 503 = crafted) :
    hdrPrevOff log (pos + 7) = 2 ^ 32 - 496 ∧ hdrKeyLen log (pos + 7) = 600 ∧
      hdrValLen log (pos + 7) = 1 := by
  refine ⟨?_, ?_, ?_⟩
  · rw [hdrPrevOff, segment_part stored (by decide)]
    decide +kernel
  · rw [hdrKeyLen, Nat.add_assoc, segment_part stored (by decide)]
    decide +kernel
  · rw [hdrValLen, Nat.add_assoc, segment_part stored (by decide)]
    decide +kernel

/-- Element `1` of the chain that starts at offset `16`. -/
theorem zedisAolLrange_crafted {log : ZedisAppendLog} (capacity : log.capacity = 2 ^ 33)
    (first : segment log.base 9 503 = crafted)
    (last : segment log.base (2 ^ 32 - 503) 503 = crafted) :
    zedisAolLrange log ⟨16, 16, 1⟩ 1 1 64 =
      some (arrayHeader 1 ++ bulkText [log.base (2 ^ 32 + 112)]) := by
  have isHdr : ∀ off, off ≤ 2 ^ 32 - 496 → hdrAt log off = true := by
    intro off below
    have notEnd : off ≠ zedisAolNoPrev := by
      unfold zedisAolNoPrev
      omega
    have inside : ¬ off + aolHdrSize > log.capacity := by
      rw [capacity]
      unfold aolHdrSize
      omega
    simp only [hdrAt, beq_eq_false_iff_ne.mpr notEnd, decide_eq_false inside, Bool.or_self,
      Bool.not_false]
  have prev : hdrPrevOff log 16 = 2 ^ 32 - 496 := (hdr_crafted first).1
  obtain ⟨-, keyLen, valLen⟩ := hdr_crafted last
  rw [show 2 ^ 32 - 503 + 7 = 2 ^ 32 - 496 by decide] at keyLen valLen
  have value : valAt log (2 ^ 32 - 496) = [log.base (2 ^ 32 + 112)] := by
    rw [valAt, keyLen, valLen]
    rfl
  have walk : chainWalk log 1024 16 =
      16 :: (2 ^ 32 - 496) :: chainWalk log 1022 (hdrPrevOff log (2 ^ 32 - 496)) := by
    rw [chainWalk, if_neg (by decide), isHdr 16 (by decide), if_neg (by decide), prev, chainWalk,
      if_neg (by decide), isHdr _ le_rfl, if_neg (by decide)]
  have header : formatted (arrayHeader 1) 64 = some (arrayHeader 1) := by decide
  have printed : printElement log 64 (arrayHeader 1) (2 ^ 32 - 496) =
      some (arrayHeader 1 ++ bulkText [log.base (2 ^ 32 + 112)]) := by
    have short := length_bulkText_le [log.base (2 ^ 32 + 112)]
    have texts : (arrayHeader 1).length = 4 ∧ (decimal 1).length = 1 := by decide
    rw [List.length_singleton] at short
    rw [printElement, isHdr _ le_rfl, if_neg (by decide), value]
    exact if_neg (by omega)
  generalize chainWalk log 1022 (hdrPrevOff log (2 ^ 32 - 496)) = rest at walk
  have within : ¬ ((1 : Int) < 0 ∨ (1 : Int) ≥ ((16 :: (2 ^ 32 - 496) :: rest).length : Nat)) := by
    simp only [List.length_cons]
    omega
  unfold zedisAolLrange
  rw [if_neg (by decide)]
  dsimp only
  rw [walk, if_neg within, if_neg (show ¬ (1 : Int) < 0 by decide), if_neg (by decide)]
  change (formatted (arrayHeader 1) 64).bind _ = _
  rw [header]
  change [2 ^ 32 - 496].foldlM (printElement log 64) (arrayHeader 1) = _
  rw [List.foldlM_cons, printed]
  rfl

/-- The state after an accepted push to the list at index `i`. -/
def pushed (s : Registries) (i : Nat) (key val : Bytes) : Registries :=
  { s with
    lists := { s.lists with
      lists := Function.update s.lists.lists i (pushedList s.log (s.lists.lists i)) }
    log := pushedLog s.log (s.lists.lists i) key val }

theorem pushed_lists_self {s : Registries} {i : Nat} {key val : Bytes} :
    (pushed s i key val).lists.lists i = pushedList s.log (s.lists.lists i) :=
  Function.update_self _ _ _

theorem pushed_lists_other {s : Registries} {i j : Nat} {key val : Bytes} (differs : j ≠ i) :
    (pushed s i key val).lists.lists j = s.lists.lists j :=
  Function.update_of_ne differs _ _

theorem regStep_pushed {s : Registries} {key val : Bytes} {i : Nat}
    (found : lookupIndex s.lists.keys key = some (some i)) (accepted : Accepted s.log key val) :
    regStep s (.lpush key val) = some (pushed s i key val) := by
  rcases zedisAolLpush_cases s.log (s.lists.lists i) key val with ⟨refused, -⟩ | ⟨-, result⟩
  · exact absurd accepted refused
  · simp only [regStep, zedisListRegLpush, listIndexForKey, indexForKey, found, Option.bind_some,
      Option.map_some, result]
    rfl

/-- `n` records of `512` bytes, all of the first list. -/
structure Filled (keys : KeyIndex) (n : Nat) (s : Registries) : Prop where
  keys_eq : s.lists.toKeyIndex = keys
  capacity : s.log.capacity = 2 ^ 33
  pos : s.log.writePos = 512 * n
  vals : ∀ i < n, segment s.log.base (512 * i + 9) 503 = crafted
  zero : ∀ j, 512 * n ≤ j → s.log.base j = 0
  other : s.lists.lists 1 = emptyList

variable {keys : KeyIndex} {n : Nat} {s : Registries}

theorem Filled.accepted (filled : Filled keys n s) (small : n ≤ 2 ^ 23) :
    Accepted s.log [97] crafted := by
  refine crafted_accepted ?_
  rw [filled.pos, filled.capacity]
  unfold sizeMod
  omega

theorem Filled.step (filled : Filled keys n s) (small : n < 2 ^ 23) :
    Filled keys (n + 1) (pushed s 0 [97] crafted) := by
  have size := size_crafted
  have pos := filled.pos
  have written : segment (pushed s 0 [97] crafted).log.base (512 * n + 9) 503 = crafted := by
    have stored := writeRecord_val s.log.base s.log.writePos (s.lists.lists 0).headOff [97] crafted
    rw [length_crafted] at stored
    rw [← pos]
    exact stored
  refine ⟨filled.keys_eq, filled.capacity, ?_, fun i below => ?_, fun j above => ?_, ?_⟩
  · have grows := pushedLog_writePos (s.lists.lists 0) (filled.accepted small.le)
      (show s.log.writePos < 2 ^ 63 by omega)
    rw [size, pos] at grows
    exact grows.trans (by ring)
  · rcases Nat.lt_succ_iff_lt_or_eq.mp below with old | rfl
    · rw [← filled.vals i old]
      exact segment_congr fun j _ inside => writeRecord_below _ _ _ _ _ (by omega)
    · exact written
  · rw [← filled.zero j (by omega)]
    exact writeRecord_above _ _ _ _ _ (by omega)
  · rw [pushed_lists_other (show 1 ≠ 0 by decide)]
    exact filled.other

theorem filled_run (found : lookupIndex keys.keys [97] = some (some 0)) (start : Filled keys 0 s) :
    ∀ n ≤ 2 ^ 23, ∃ last, Run regStep Always s (List.replicate n (.lpush [97] crafted)) last ∧
      Filled keys n last
  | 0, _ => ⟨s, .nil s, start⟩
  | n + 1, small => by
    obtain ⟨middle, run, filled⟩ := filled_run found start n (by omega)
    have taken := regStep_pushed (s := middle) (by rw [filled.keys_eq]; exact found)
      (filled.accepted (by omega))
    rw [List.replicate_succ']
    exact ⟨_, run.snoc trivial taken, filled.step small⟩

/-- The two pushes past `2 ^ 32`, and the push after them. -/
structure Wrapped (s : Registries) : Prop where
  other : s.lists.lists 1 = ⟨16, 16, 1⟩
  capacity : s.log.capacity = 2 ^ 33
  pos : s.log.writePos = 2 ^ 32 + 26
  first : segment s.log.base 9 503 = crafted
  last : segment s.log.base (2 ^ 32 - 503) 503 = crafted
  zero : s.log.base (2 ^ 32 + 112) = 0

theorem Filled.wrapped (filled : Filled keys (2 ^ 23) s) :
    Accepted s.log [97] (List.replicate 7 65) ∧
      Accepted (pushed s 0 [97] (List.replicate 7 65)).log [98] [66] ∧
        Wrapped (pushed (pushed s 0 [97] (List.replicate 7 65)) 1 [98] [66]) := by
  have pos : s.log.writePos = 2 ^ 32 := filled.pos
  have accepted : Accepted s.log [97] (List.replicate 7 65) := by
    refine ⟨by decide, by decide, by decide, by decide, ?_⟩
    rw [pos, filled.capacity]
    decide
  have grows := pushedLog_writePos (s.lists.lists 0) accepted (by rw [pos]; decide)
  have pos' : (pushed s 0 [97] (List.replicate 7 65)).log.writePos = 2 ^ 32 + 16 := by
    rw [pos] at grows
    exact grows
  have accepted' : Accepted (pushed s 0 [97] (List.replicate 7 65)).log [98] [66] := by
    refine ⟨by decide, by decide, by decide, by decide, ?_⟩
    rw [pos', show (pushed s 0 [97] (List.replicate 7 65)).log.capacity = 2 ^ 33 from filled.capacity]
    decide
  have grows' := pushedLog_writePos ((pushed s 0 [97] (List.replicate 7 65)).lists.lists 1) accepted'
    (by rw [pos']; decide)
  have same : ∀ i < 2 ^ 32, (pushed (pushed s 0 [97] (List.replicate 7 65)) 1 [98] [66]).log.base i =
      s.log.base i := by
    intro i below
    refine (writeRecord_below _ _ _ _ _ ?_).trans (writeRecord_below _ _ _ _ _ ?_)
    · rw [pos']
      omega
    · rw [pos]
      exact below
  refine ⟨accepted, accepted', ?_, filled.capacity, ?_, ?_, ?_, ?_⟩
  · rw [pushed_lists_self, pushed_lists_other (show 1 ≠ 0 by decide), filled.other, pushedList, pos']
    decide
  · rw [pos'] at grows'
    exact grows'
  · rw [← filled.vals 0 (by decide)]
    exact segment_congr fun i _ inside => same i (by omega)
  · rw [← filled.vals (2 ^ 23 - 1) (by decide)]
    exact segment_congr fun i _ inside => same i (by omega)
  · refine (writeRecord_above _ _ _ _ _ ?_).trans ((writeRecord_above _ _ _ _ _ ?_).trans
      (filled.zero _ (by decide)))
    · rw [pos']
      decide
    · rw [pos]
      decide

theorem Wrapped.accepted (wrapped : Wrapped s) : Accepted s.log [97] crafted := by
  refine crafted_accepted ?_
  rw [wrapped.pos, wrapped.capacity]
  decide

/-- Element `1` of `b`, before and after the push to `a`. -/
theorem Wrapped.lrange (wrapped : Wrapped s) :
    zedisAolLrange s.log (s.lists.lists 1) 1 1 64 = some (arrayHeader 1 ++ bulkText [0]) ∧
      zedisAolLrange (pushed s 0 [97] crafted).log ((pushed s 0 [97] crafted).lists.lists 1) 1 1 64 =
        some (arrayHeader 1 ++ bulkText [65]) := by
  have same : ∀ i < 2 ^ 32, (pushed s 0 [97] crafted).log.base i = s.log.base i := by
    intro i below
    refine writeRecord_below _ _ _ _ _ ?_
    rw [wrapped.pos]
    omega
  have stored := writeRecord_val s.log.base s.log.writePos (s.lists.lists 0).headOff [97] crafted
  rw [length_crafted] at stored
  have value : segment (pushed s 0 [97] crafted).log.base (s.log.writePos + 9 + 77) 1 = [65] := by
    refine (segment_part stored (by decide)).trans ?_
    decide +kernel
  rw [wrapped.pos] at value
  constructor
  · rw [wrapped.other, zedisAolLrange_crafted wrapped.capacity wrapped.first wrapped.last,
      wrapped.zero]
  · have capacity : (pushed s 0 [97] crafted).log.capacity = 2 ^ 33 := wrapped.capacity
    rw [pushed_lists_other (show 1 ≠ 0 by decide), wrapped.other, zedisAolLrange_crafted capacity
      ((segment_congr fun i _ inside => same i (by omega)).trans wrapped.first)
      ((segment_congr fun i _ inside => same i (by omega)).trans wrapped.last)]
    exact congrArg (fun data => some (arrayHeader 1 ++ bulkText data)) value

end LongLog

/-- Pushes without a value only take indices. -/
theorem run_no_value {start s : Registries} {ops : List RegRequest} (indexed : Indexed start)
    (run : Run regStep (fun _ op => ∃ key, op = .lpush key []) start ops s) :
    s.lists.lists = start.lists.lists ∧ s.log = start.log := by
  have kept := run.invariant
    (fun s => Indexed s ∧ s.lists.lists = start.lists.lists ∧ s.log = start.log) ?_
    ⟨indexed, rfl, rfl⟩
  · exact kept.2
  · rintro s op next ⟨indexed, lists, log⟩ ⟨key, rfl⟩ taken
    refine ⟨indexed.step taken, ?_⟩
    obtain ⟨zindex, lindex, zok, lok⟩ := indexed
    obtain ⟨_, _, -, -, -, -, -, pushes⟩ := regStep_spec zok lok taken
    rcases pushes with ⟨lists', log'⟩ | ⟨_, _, _, isPush, -, accepted, -, -⟩
    · exact ⟨lists'.trans lists, log'.trans log⟩
    · cases isPush
      exact absurd accepted.valPos (by decide)

/-- **A push changes the range of another list**: element `1` of `b` is a NUL byte before, and the
byte `A` after. -/
theorem push_changes_other_range :
    ¬ ∀ s, ReachableBy Always s → ∀ op next, regStep s op = some next → ∀ key, key ≠ op.key →
      (∃ i, lookupIndex s.lists.keys key = some (some i)) → ∀ start stop replyCap,
        zedisListRegLrange next.lists next.log key start stop replyCap =
          zedisListRegLrange s.lists s.log key start stop replyCap := by
  intro unchanged
  have played : ((sampleRegistries (2 ^ 33)).bind fun start =>
      (replay regStep start [.lpush [97] [], .lpush [98] []]).map fun s =>
        (lookupIndex s.lists.keys [97], lookupIndex s.lists.keys [98])) =
      some (some (some 0), some (some 1)) := by decide +kernel
  obtain ⟨start, made, played⟩ := Option.bind_eq_some_iff.mp played
  obtain ⟨named, played, found⟩ := Option.map_eq_some_iff.mp played
  obtain ⟨foundA, foundB⟩ := Prod.mk.inj found
  have fresh := sampleRegistries_fresh made
  have naming : Run regStep (fun _ op => ∃ key, op = .lpush key []) start _ named :=
    Run.of_replay (by simp) played
  obtain ⟨lists, log⟩ := run_no_value fresh.indexed naming
  rw [sampleRegistries_log made] at log
  have empty : Filled named.lists.toKeyIndex 0 named := by
    refine ⟨rfl, by rw [log], by rw [log], nofun, fun j _ => by rw [log], ?_⟩
    rw [lists, fresh.lists_empty]
  obtain ⟨long, filling, filled⟩ := filled_run foundA empty (2 ^ 23) le_rfl
  rw [← filled.keys_eq] at foundA foundB
  obtain ⟨accepted, accepted', wrapped⟩ := filled.wrapped
  have run := ((naming.mono fun _ _ _ => trivial).append filling).snoc trivial
    (regStep_pushed foundA accepted) |>.snoc trivial (regStep_pushed foundB accepted')
  have same := unchanged _ ⟨start, _, fresh, run⟩ _ _ (regStep_pushed foundA wrapped.accepted) [98]
    (by decide) ⟨1, foundB⟩ 1 1 64
  obtain ⟨before, after⟩ := wrapped.lrange
  rw [zedisListRegLrange, zedisListRegLrange] at same
  change Option.map _ (lookupIndex long.lists.keys [98]) =
    Option.map _ (lookupIndex long.lists.keys [98]) at same
  rw [foundB] at same
  exact absurd (after.symm.trans ((Option.some.inj same).trans before)) (by decide)

end Zedis.Registry

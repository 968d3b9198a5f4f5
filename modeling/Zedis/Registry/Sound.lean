/-
**What holds in every registry that requests reach.**

`ZsetInv reg index`: the keys have their indices (`IndexOk`), each of the trees meets its own invariant
and has room for `ZEDIS_BTREE_MAX_ENTRIES` members at most, and one that no key has been given yet is
empty and has room. `zedisZsetRegAdd_cases` says everything a `ZADD` can do to a registry: no index is
found for its key and no tree is touched, or it is a `zedis_btree_add` on the tree of its index.
-/

import Zedis.BTree.Reach
import Zedis.Registry.Isolation

namespace Zedis.Registry

open Zedis.Lib Zedis.Arena Zedis.HashTable Zedis.BTree Zedis.AppendLog

/-- **The invariant of a registry of sorted sets.** -/
structure ZsetInv (reg : ZedisZsetRegistry) (index : Bytes → Option Nat) : Prop where
  index : IndexOk reg.toKeyIndex index
  trees : ∀ i < reg.max, ∃ t, SetInv (reg.trees i) t
  bounded : ∀ i < reg.max, (reg.trees i).maxMembers ≤ zedisBtreeMaxEntries
  unused : ∀ i, reg.used ≤ i → i < reg.max →
    (reg.trees i).memberCount = 0 ∧ 0 < (reg.trees i).maxMembers

/-- The indices and the trees of a server. -/
def RegistriesInv (s : Registries) : Prop :=
  (∃ zindex, ZsetInv s.zsets zindex) ∧ ∃ lindex, IndexOk s.lists.toKeyIndex lindex

section Request

variable {reg : ZedisZsetRegistry} {index : Bytes → Option Nat}

theorem ZsetInv.below (inv : ZsetInv reg index) {key : Bytes} {i : Nat} (has : index key = some i) :
    i < reg.max :=
  (inv.index.below key i has).trans_le inv.index.used_le

/-- No search for an index changes `max`, and none lowers `used`. -/
theorem IndexResult.sizes {reg after : KeyIndex} {index index' : Bytes → Option Nat} {key : Bytes}
    {found : Option Nat} (result : IndexResult reg index key found after index') :
    after.max = reg.max ∧ reg.used ≤ after.used := by
  cases result with
  | found i _ => exact ⟨rfl, le_rfl⟩
  | full _ _ => exact ⟨rfl, le_rfl⟩
  | burned _ _ _ => exact ⟨rfl, Nat.le_succ _⟩
  | assigned keys _ _ _ => exact ⟨rfl, Nat.le_succ _⟩

/-- An index that was found is in use. -/
theorem IndexResult.found_lt {reg after : KeyIndex} {index index' : Bytes → Option Nat} {key : Bytes}
    {i : Nat} (ok : IndexOk reg index) (result : IndexResult reg index key (some i) after index') :
    i < after.used ∧ after.used ≤ after.max := by
  cases result with
  | found _ has => exact ⟨ok.below key i has, ok.used_le⟩
  | assigned keys _ free _ => exact ⟨Nat.lt_succ_self _, free⟩

/-- The trees with one of them changed by a call. -/
theorem ZsetInv.change (inv : ZsetInv reg index) {fields : KeyIndex} {index' : Bytes → Option Nat}
    {key : Bytes} {i : Nat} (result : IndexResult reg.toKeyIndex index key (some i) fields index')
    (ok' : IndexOk fields index') {tree : ZedisBtree} {t : ScoreTrees} (kept : SetInv tree t)
    (room : tree.maxMembers = (reg.trees i).maxMembers) :
    ZsetInv ⟨fields, Function.update reg.trees i tree⟩ index' := by
  obtain ⟨max_eq, used_le⟩ := result.sizes
  obtain ⟨below, -⟩ := result.found_lt inv.index
  refine ⟨ok', fun j within => ?_, fun j within => ?_, fun j above within => ?_⟩
  · change j < fields.max at within
    change ∃ t, SetInv (Function.update reg.trees i tree j) t
    by_cases same : j = i
    · subst same
      rw [Function.update_self]
      exact ⟨t, kept⟩
    · rw [Function.update_of_ne same]
      exact inv.trees j (max_eq ▸ within)
  · change j < fields.max at within
    change (Function.update reg.trees i tree j).maxMembers ≤ zedisBtreeMaxEntries
    by_cases same : j = i
    · subst same
      rw [Function.update_self, room]
      exact inv.bounded j (max_eq ▸ within)
    · rw [Function.update_of_ne same]
      exact inv.bounded j (max_eq ▸ within)
  · change fields.used ≤ j at above
    change j < fields.max at within
    have untouched : Function.update reg.trees i tree j = reg.trees j :=
      Function.update_of_ne (below.trans_le above).ne' _ _
    change (Function.update reg.trees i tree j).memberCount = 0 ∧
      0 < (Function.update reg.trees i tree j).maxMembers
    rw [untouched]
    exact inv.unused j (used_le.trans above) (max_eq ▸ within)

/-- What a `ZADD` does, `found` being the index of its key. -/
inductive ZaddResult (reg : ZedisZsetRegistry) (score : Int) (member : Bytes) (fields : KeyIndex) :
    Option Nat → Int → ZedisZsetRegistry → Prop
  | noIndex : ZaddResult reg score member fields none (-1) { reg with toKeyIndex := fields }
  | onTree (i : Nat) (t t' : ScoreTrees) (rc : Int) (tree : ZedisBtree) : SetInv (reg.trees i) t →
      AddResult (reg.trees i) t ⟨score, member⟩ rc tree t' →
      ZaddResult reg score member fields (some i) rc ⟨fields, Function.update reg.trees i tree⟩

/-- **Everything a `ZADD` can do**, and the invariant after it. -/
theorem zedisZsetRegAdd_cases (inv : ZsetInv reg index) (key : Bytes) (score : Int) (member : Bytes) :
    ∃ found fields index' rc after, zedisZsetRegAdd reg key score member = some (rc, after) ∧
      IndexResult reg.toKeyIndex index key found fields index' ∧
      ZaddResult reg score member fields found rc after ∧ ZsetInv after index' := by
  obtain ⟨found, fields, index', search, result, ok'⟩ := indexForKey_cases inv.index key
  unfold zedisZsetRegAdd zsetIndexForKey
  rw [search, Option.map_some, Option.bind_some]
  cases found with
  | none =>
    refine ⟨none, fields, index', -1, _, rfl, result, .noIndex, ok', fun i within => ?_,
      fun i within => ?_, fun i above within => ?_⟩
    · exact inv.trees i (result.sizes.1 ▸ within)
    · exact inv.bounded i (result.sizes.1 ▸ within)
    · exact inv.unused i (result.sizes.2.trans above) (result.sizes.1 ▸ within)
  | some i =>
    obtain ⟨below, used_le⟩ := result.found_lt inv.index
    obtain ⟨t, set⟩ := inv.trees i (result.sizes.1 ▸ below.trans_le used_le)
    obtain ⟨rc, tree, t', ends, added, kept⟩ := zedisBtreeAdd_cases set ⟨score, member⟩
    refine ⟨some i, fields, index', rc, _, ?_, result, .onTree i t t' rc tree set added,
      inv.change result ok' kept added.maxMembers⟩
    simp only at ends ⊢
    rw [ends]
    rfl

/-- A score is looked up. -/
theorem zedisZsetRegScore_returns (inv : ZsetInv reg index) (key member : Bytes) :
    ∃ found, zedisZsetRegScore reg key member = some found := by
  unfold zedisZsetRegScore
  rw [lookupIndex_eq inv.index, Option.bind_some]
  cases has : index key with
  | none => exact ⟨none, rfl⟩
  | some i =>
    obtain ⟨t, set⟩ := inv.trees i (inv.below has)
    simp only [zedisBtreeScore, lookupMember_eq set]
    exact ⟨_, rfl⟩

/-- An index that was found is the one of the key. -/
theorem IndexResult.index_eq {reg after : KeyIndex} {index index' : Bytes → Option Nat} {key : Bytes}
    {i : Nat} (result : IndexResult reg index key (some i) after index') : index' key = some i := by
  cases result with
  | found _ has => exact has
  | assigned keys _ _ _ => exact Function.update_self ..

/-- **A score that was added is found**, under its key and for its member. -/
theorem zedisZsetRegAdd_score (inv : ZsetInv reg index) {key member : Bytes} {score : Int}
    {after : ZedisZsetRegistry} (taken : zedisZsetRegAdd reg key score member = some (0, after)) :
    zedisZsetRegScore after key member = some (some score) := by
  obtain ⟨found, fields, index', rc, after', ends, result, added, kept⟩ :=
    zedisZsetRegAdd_cases inv key score member
  rw [ends] at taken
  obtain ⟨done, rfl⟩ := Prod.mk.inj (Option.some.inj taken)
  cases added with
  | noIndex => exact absurd done (by decide)
  | onTree i t t' rc tree _ added =>
    obtain ⟨below, used_le⟩ := result.found_lt inv.index
    obtain ⟨t, set⟩ := kept.trees i (below.trans_le used_le)
    obtain ⟨j, within, holds⟩ := added.stores done
    have tree_eq : Function.update reg.trees i tree i = tree := Function.update_self ..
    simp only [tree_eq] at set
    rw [zedisZsetRegScore, lookupIndex_eq kept.index, result.index_eq, Option.bind_some]
    simp only [tree_eq]
    exact set.score within holds

end Request

/-! ### Lists -/

section Lists

variable {reg : ZedisListRegistry} {index : Bytes → Option Nat}

theorem zedisListRegLlen_returns (ok : IndexOk reg.toKeyIndex index) (key : Bytes) :
    ∃ len, zedisListRegLlen reg key = some len := by
  unfold zedisListRegLlen
  rw [lookupIndex_eq ok]
  exact ⟨_, rfl⟩

end Lists

/-! ### Whole runs -/

section Runs

variable {s next : Registries} {op : RegRequest}

theorem initTrees_spec {maxMembers : Nat} : ∀ (left i : Nat) (trees : Nat → ZedisBtree)
    (arena : ZedisArena) {made : Nat → ZedisBtree} {arena' : ZedisArena},
    initTrees maxMembers left i trees arena = some (made, arena') →
    (∀ j < i, made j = trees j) ∧ ∀ j, i ≤ j → j < i + left →
      (∃ t, SetInv (made j) t) ∧ (made j).maxMembers ≤ zedisBtreeMaxEntries ∧
        (made j).memberCount = 0 ∧ 0 < (made j).maxMembers
  | 0, i, trees, arena, made, arena', same => by
    cases same
    exact ⟨fun _ _ => rfl, fun j above below => absurd below (Nat.not_lt.mpr above)⟩
  | left + 1, i, trees, arena, made, arena', same => by
    obtain ⟨⟨tree, granted⟩, new, rest⟩ := Option.bind_eq_some_iff.mp same
    obtain ⟨before, after⟩ := initTrees_spec left (i + 1) _ granted rest
    refine ⟨fun j below => ?_, fun j above below => ?_⟩
    · rw [before j (Nat.lt_succ_of_lt below), Function.update_of_ne below.ne]
    · rcases Nat.eq_or_lt_of_le above with rfl | later
      · rw [before i (Nat.lt_succ_self i), Function.update_self]
        obtain ⟨inv, empty, room⟩ := zedisBtreeInit_inv new
        have positive : maxMembers ≠ 0 := by
          rintro rfl
          cases new
        refine ⟨⟨.empty, inv⟩, room ▸ Nat.min_le_right _ _, empty, ?_⟩
        rw [room, zedisBtreeMaxEntries]
        omega
      · exact after j later (by omega)

theorem zedisZsetRegInit_inv {arena arena' : ZedisArena} {maxZsets maxMembers : UInt32}
    {reg : ZedisZsetRegistry} (made : zedisZsetRegInit arena maxZsets maxMembers = some (reg, arena')) :
    ZsetInv reg fun _ => none := by
  have ok := zedisZsetRegInit_spec made
  unfold zedisZsetRegInit at made
  split at made
  · cases made
  · obtain ⟨⟨_, granted⟩, -, made⟩ := Option.bind_eq_some_iff.mp made
    obtain ⟨⟨trees, arena⟩, init, made⟩ := Option.bind_eq_some_iff.mp made
    obtain ⟨⟨keys, arena⟩, -, same⟩ := Option.map_eq_some_iff.mp made
    cases same
    obtain ⟨-, each⟩ := initTrees_spec maxZsets.toNat 0 _ _ init
    refine ⟨ok, fun i within => (each i (Nat.zero_le i) ?_).1,
      fun i within => (each i (Nat.zero_le i) ?_).2.1,
      fun i _ within => (each i (Nat.zero_le i) ?_).2.2⟩
    · rwa [Nat.zero_add]
    · rwa [Nat.zero_add]
    · rwa [Nat.zero_add]

theorem Fresh.inv (fresh : Fresh s) : RegistriesInv s := by
  obtain ⟨_, _, _, _, _, _, _, _, _, zmade, lmade, -⟩ := fresh
  exact ⟨⟨_, zedisZsetRegInit_inv zmade⟩, ⟨_, (zedisListRegInit_spec lmade).1⟩⟩

theorem RegistriesInv.step (inv : RegistriesInv s) (taken : regStep s op = some next) :
    RegistriesInv next := by
  obtain ⟨⟨zindex, zinv⟩, ⟨lindex, lok⟩⟩ := inv
  cases op with
  | add key score member =>
    obtain ⟨_, _, index', rc, after, added, -, -, kept⟩ := zedisZsetRegAdd_cases zinv key score member
    rw [regStep, added] at taken
    cases taken
    exact ⟨⟨index', kept⟩, ⟨lindex, lok⟩⟩
  | lpush key val =>
    obtain ⟨_, _, index', rc, after, log', pushed, -, kept, -⟩ :=
      zedisListRegLpush_cases lok s.log key val
    rw [regStep, pushed] at taken
    cases taken
    exact ⟨⟨zindex, zinv⟩, ⟨index', kept⟩⟩

/-- **Every reachable state meets the invariant.** -/
theorem ReachableBy.inv {ok : Registries → RegRequest → Prop} (reach : ReachableBy ok s) :
    RegistriesInv s := by
  obtain ⟨start, ops, fresh, run⟩ := reach
  exact run.invariant RegistriesInv (fun _ _ _ inv _ taken => inv.step taken) fresh.inv

end Runs

end Zedis.Registry

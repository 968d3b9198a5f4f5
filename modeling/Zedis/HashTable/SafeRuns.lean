/-
**Runs whose deletions are safe.**

As long as every deletion of a run is safe (`SafeStep`) the table stays in Robin Hood order
(`ReachableBy.ordered`). In such a run:

* `zedisHtSet_other`: a set changes the lookup of no other key;
* `keys_unique_and_stay_deleted`: no key has two entries, a deleted key is not found again before it
  is stored again, and safety is what this needs: after an unsafe deletion, storing the key of the
  next slot gives it two entries.

`set_loses_key` and `key_duplicated_and_resurrected` are runs of a table of eight slots with an
unsafe deletion.
-/

import Zedis.HashTable.RobinHood
import Zedis.HashTable.Delete

namespace Zedis.HashTable

open Zedis.Lib Zedis.Arena

/-- A call that removes no entry another one passed. -/
def SafeStep (ht : ZedisHashTable) : HtOp → Prop
  | .set _ _ => True
  | .del key => SafeDel ht key

/-! ### The order along a run -/

theorem zedisHtSet_capacity {ht after : ZedisHashTable} {key value : Bytes} {rc : Int}
    (ends : zedisHtSet ht key value = some (rc, after)) : after.capacity = ht.capacity := by
  unfold zedisHtSet at ends
  split at ends
  · cases ends
    rfl
  · split at ends
    · cases ends
      rfl
    · obtain ⟨⟨entries, inserted⟩, -, same⟩ := Option.map_eq_some_iff.mp ends
      cases same
      rfl

theorem zedisHtDel_capacity {ht after : ZedisHashTable} {key : Bytes} {rc : Int}
    (ends : zedisHtDel ht key = some (rc, after)) : after.capacity = ht.capacity := by
  obtain ⟨found, -, same⟩ := Option.map_eq_some_iff.mp ends
  cases found with
  | none =>
    cases same
    rfl
  | some slot =>
    cases same
    rfl

theorem htStep_capacity {ht next : ZedisHashTable} {op : HtOp} (taken : htStep ht op = some next) :
    next.capacity = ht.capacity := by
  cases op with
  | set key value =>
    obtain ⟨⟨rc, after⟩, ends, rfl⟩ := Option.map_eq_some_iff.mp taken
    exact zedisHtSet_capacity ends
  | del key =>
    obtain ⟨⟨rc, after⟩, ends, rfl⟩ := Option.map_eq_some_iff.mp taken
    exact zedisHtDel_capacity ends

/-- **A safe call keeps the order.** -/
theorem htStep_ordered {ht next : ZedisHashTable} {op : HtOp} (ordered : Ordered ht)
    (safe : SafeStep ht op) (taken : htStep ht op = some next) : Ordered next := by
  obtain ⟨map, represents⟩ := ordered.exists_represents
  cases op with
  | set key value =>
    by_cases refused : Refused ht key value
    · simp only [htStep, zedisHtSet_refused refused, Option.map_some, Option.some.injEq] at taken
      exact taken ▸ ordered
    · obtain ⟨after, ends, -, kept, -⟩ := zedisHtSet_represents ordered represents refused
      simp only [htStep, ends, Option.map_some, Option.some.injEq] at taken
      exact taken ▸ kept
  | del key =>
    obtain ⟨after, ends, -, kept, -⟩ := zedisHtDel_represents ordered represents safe
    simp only [htStep, ends, Option.map_some, Option.some.injEq] at taken
    exact taken ▸ kept

theorem init_ordered {capacity : Nat} (positive : 0 < capacity) (small : capacity ≤ pslMod) :
    Ordered ⟨fun _ => zeroEntry, capacity, 0⟩ where
  inv := init_inv positive
  small := small
  order := ⟨fun _ _ occupied => (by cases occupied), fun _ _ occupied => (by cases occupied),
    fun _ _ _ _ occupied => (by cases occupied)⟩

/-- **A table reached by safe calls is in Robin Hood order.** -/
theorem ReachableBy.ordered {ht : ZedisHashTable} (reach : ReachableBy SafeStep ht)
    (small : ht.capacity ≤ pslMod) : Ordered ht := by
  obtain ⟨arena, capacity, start, arena', ops, made, run⟩ := reach
  obtain ⟨positive, rfl⟩ := zedisHtInit_eq made
  have kept := run.invariant (fun ht => ht.capacity ≤ pslMod → Ordered ht)
    (fun s op next ordered safe taken small =>
      htStep_ordered (ordered (htStep_capacity taken ▸ small)) safe taken)
    (fun small => init_ordered positive small)
  exact kept small

/-! ### Other keys -/

/-- **In a run of safe calls, a set changes the lookup of no other key.** -/
theorem zedisHtSet_other (ht : ZedisHashTable) (reach : ReachableBy SafeStep ht)
    (small : ht.capacity ≤ pslMod) (key value other : Bytes) (differ : other ≠ key) :
    ∃ rc after, zedisHtSet ht key value = some (rc, after) ∧
      ∀ valueCap, zedisHtGet after other valueCap = zedisHtGet ht other valueCap := by
  have ordered := reach.ordered small
  by_cases refused : Refused ht key value
  · exact ⟨-1, ht, zedisHtSet_refused refused, fun _ => rfl⟩
  · obtain ⟨map, represents⟩ := ordered.exists_represents
    obtain ⟨after, ends, -, kept, updated⟩ := zedisHtSet_represents ordered represents refused
    refine ⟨0, after, ends, fun valueCap => ?_⟩
    rw [zedisHtGet_represents kept updated, zedisHtGet_represents ordered represents,
      Function.update_of_ne differ]

/-- The keys `a`, `i` and `q` have home slot `4` of eight and stand in the slots `4`, `5` and `6`; `i` is
deleted, and `b`, whose home is slot `5`, takes its place. -/
def takenPlace : List HtOp :=
  [.set [97] [49], .set [105] [50], .set [113] [51], .del [105], .set [98] [52]]

/-- Without the deletion, storing `q` again keeps `i`. -/
theorem zedisHtSet_other_takenPlace :
    ∃ ht, ReachableBy SafeStep ht ∧ ht.capacity ≤ pslMod ∧
      ∃ rc after, zedisHtSet ht [113] [53] = some (rc, after) ∧
        ∀ valueCap, zedisHtGet after [105] valueCap = zedisHtGet ht [105] valueCap := by
  obtain ⟨ht, returned⟩ := Option.isSome_iff_exists.mp
    (show (replay htStep (smallTable 8) (takenPlace.take 3)).isSome by decide)
  have reach : ReachableBy SafeStep ht := reachable_of_replay (by decide)
    (fun _ op member => by
      simp only [takenPlace, List.take, List.mem_cons, List.not_mem_nil, or_false] at member
      rcases member with rfl | rfl | rfl <;> trivial) returned
  have capacity : (replay htStep (smallTable 8) (takenPlace.take 3)).map
      (fun ht => ht.capacity) = some 8 := by decide
  rw [returned, Option.map_some, Option.some.injEq] at capacity
  have small : ht.capacity ≤ pslMod := by rw [capacity]; decide
  exact ⟨ht, reach, small, zedisHtSet_other ht reach small [113] [53] [105] (by decide)⟩

/-- **A set loses another key**: storing `q` again swaps `b` out of slot `5` and then stops at the old
entry of `q` in slot `6`, dropping `b`. -/
theorem set_loses_key :
    ¬ ∀ ht, Reachable ht → ∀ key value other : Bytes, key.length ≤ zedisHtMaxKey →
      value.length ≤ zedisHtMaxValue → other ≠ key → ∀ valueCap rc after,
        zedisHtSet ht key value = some (rc, after) →
          zedisHtGet after other valueCap = zedisHtGet ht other valueCap := by
  intro othersKept
  obtain ⟨ht, returned⟩ := Option.isSome_iff_exists.mp
    (show (replay htStep (smallTable 8) takenPlace).isSome by decide)
  have reach : Reachable ht := reachable_of_replay (by decide) (fun _ _ _ => trivial) returned
  have hit : ((replay htStep (smallTable 8) takenPlace).bind fun ht => zedisHtGet ht [98] 64) =
      some (some ⟨[52, 0], 1⟩) := by decide
  have miss : ((replay htStep (smallTable 8) takenPlace).bind fun ht =>
      (zedisHtSet ht [113] [53]).bind fun stored => zedisHtGet stored.2 [98] 64) = some none := by
    decide
  rw [returned, Option.bind_some] at hit miss
  obtain ⟨⟨rc, after⟩, stored, got⟩ := Option.bind_eq_some_iff.mp miss
  have same := othersKept ht reach [113] [53] [98] (by decide) (by decide) (by decide) 64 rc after stored
  rw [got, hit] at same
  cases same

/-! ### Copies of a key -/

section Copies

variable {ht : ZedisHashTable} {key : Bytes}

theorem Ordered.get_none (ordered : Ordered ht)
    (absent : ∀ value, ¬ Holds ht.capacity ht.entries key value) (valueCap : Nat) :
    zedisHtGet ht key valueCap = some none := by
  obtain ⟨map, represents⟩ := ordered.exists_represents
  have missing : map key = none := represents.none_iff.mpr fun slot inside occupied sameKey =>
    absent _ ⟨slot, inside, occupied, sameKey, rfl⟩
  rw [zedisHtGet_represents ordered represents, missing]
  rfl

/-- A call that stores the key. -/
def Stores (key : Bytes) (ht : ZedisHashTable) (op : HtOp) : Prop :=
  ∃ value after, op = .set key value ∧ zedisHtSet ht key value = some (0, after)

/-- **A safe call that does not store a key does not bring it back.** -/
theorem htStep_absent {next : ZedisHashTable} {op : HtOp} (ordered : Ordered ht)
    (safe : SafeStep ht op) (other : ¬ Stores key ht op) (taken : htStep ht op = some next)
    (absent : ∀ value, ¬ Holds ht.capacity ht.entries key value) (value : Bytes) :
    ¬ Holds next.capacity next.entries key value := by
  obtain ⟨map, represents⟩ := ordered.exists_represents
  have missing : ∀ value, map key ≠ some value := fun value stored =>
    absent value ((represents key value).mp stored)
  cases op with
  | set key' value' =>
    by_cases refused : Refused ht key' value'
    · simp only [htStep, zedisHtSet_refused refused, Option.map_some, Option.some.injEq] at taken
      exact taken ▸ absent value
    · obtain ⟨after, ends, -, -, updated⟩ := zedisHtSet_represents ordered represents refused
      simp only [htStep, ends, Option.map_some, Option.some.injEq] at taken
      subst taken
      have differs : key ≠ key' := by
        rintro rfl
        exact other ⟨value', after, rfl, ends⟩
      rw [← updated, Function.update_of_ne differs]
      exact missing value
  | del key' =>
    obtain ⟨after, ends, -, -, updated⟩ := zedisHtDel_represents ordered represents safe
    simp only [htStep, ends, Option.map_some, Option.some.injEq] at taken
    subst taken
    rw [← updated]
    by_cases same : key = key'
    · subst same
      rw [Function.update_self]
      exact Option.some_ne_none value |>.symm
    · rw [Function.update_of_ne same]
      exact missing value

/-- The entry after a slot of an ordered table, if away from home, has passed that slot. -/
theorem Ordered.passed (ordered : Ordered ht) {slot : Nat} (inside : slot < ht.capacity)
    (covers : Covers ht.entries ((slot + 1) % ht.capacity) 1) :
    walkSlot ht (ht.entries ((slot + 1) % ht.capacity)).key
      ((ht.entries ((slot + 1) % ht.capacity)).psl - 1) = slot := by
  have within : (slot + 1) % ht.capacity < ht.capacity := Nat.mod_lt _ ordered.inv.positive
  obtain ⟨-, slotEq⟩ := ordered.foundAt within covers.1
  have step := keySlot_succ ht.capacity (ht.entries ((slot + 1) % ht.capacity)).key
    ((ht.entries ((slot + 1) % ht.capacity)).psl - 1)
  rw [Nat.sub_add_cancel covers.2] at step
  have modEq := Nat.ModEq.add_right_cancel' 1 (step.trans slotEq)
  exact Nat.ModEq.eq_of_lt_of_lt modEq (keySlot_lt ordered.inv.positive _ _) inside

/-- After the deletion, the walk of that entry's key is clear up to the deleted slot. -/
theorem bury_clear (ordered : Ordered ht) {d next : Nat} (found : FoundAt ht key d)
    (within : next < ht.capacity) (occupied : (ht.entries next).state = .occupied)
    (differs : (ht.entries next).key ≠ key)
    (passed : walkSlot ht (ht.entries next).key ((ht.entries next).psl - 1) = walkSlot ht key d)
    (t : Nat) (below : t < (ht.entries next).psl - 1) :
    Covers (bury ht (walkSlot ht key d)).entries (walkSlot ht (ht.entries next).key t) t ∧
      ¬ Matches (bury ht (walkSlot ht key d)) (ht.entries next).key t := by
  have lap := (ordered.order.placed next within occupied).lap
  have apart : walkSlot ht (ht.entries next).key t ≠ walkSlot ht key d := by
    intro same
    have := keySlot_inj (by omega) (by omega) (same.trans passed.symm)
    omega
  obtain ⟨covers, unmatched⟩ := ordered.clear within occupied t (by omega)
  rw [matches_bury_iff found differs]
  refine ⟨?_, unmatched⟩
  unfold Covers
  rw [bury_of_ne apart]
  exact covers

/-- **After a deletion, the key of the next slot can be stored a second time**, when its entry passed
the deleted one. -/
theorem set_after_bury (ordered : Ordered ht) {d : Nat} (found : FoundAt ht key d)
    (covers : Covers ht.entries ((walkSlot ht key d + 1) % ht.capacity) 1) :
    ∃ other later, zedisHtSet (bury ht (walkSlot ht key d)) other [] = some (0, later) ∧
      ¬ UniqueKeys later.capacity later.entries := by
  have inside : walkSlot ht key d < ht.capacity := keySlot_lt ordered.inv.positive key d
  have within : (walkSlot ht key d + 1) % ht.capacity < ht.capacity :=
    Nat.mod_lt _ ordered.inv.positive
  have passed := ordered.passed inside covers
  generalize (walkSlot ht key d + 1) % ht.capacity = next at *
  obtain ⟨-, slotEq⟩ := ordered.foundAt within covers.1
  have lap := (ordered.order.placed next within covers.1).lap
  have away := covers.2
  have distinct : next ≠ walkSlot ht key d := by
    intro same
    have := keySlot_inj lap (by omega) (slotEq.trans (same.trans passed.symm))
    omega
  have differs : (ht.entries next).key ≠ key := fun sameKey => distinct
    (ordered.order.unique next within _ inside covers.1 found.2.occupied
      (sameKey.trans found.2.key.symm))
  have accepted : ¬ Refused (bury ht (walkSlot ht key d)) (ht.entries next).key [] := by
    have member := mem_occupiedSlots.mpr ⟨inside, found.2.occupied⟩
    have positive := Finset.card_pos.mpr ⟨_, member⟩
    rw [← ordered.inv.count_eq] at positive
    have load := ordered.inv.load
    unfold Refused
    push Not
    refine ⟨⟨(ordered.inv.fits next covers.1).key_le, Nat.zero_le _⟩, ?_⟩
    change (ht.count - 1) * 10 < ht.capacity * 7
    omega
  have vacant : (walkEntry (bury ht (walkSlot ht key d)) (ht.entries next).key
      ((ht.entries next).psl - 1)).state ≠ .occupied := fun taken =>
    ne_of_bury_occupied taken passed
  obtain ⟨after, inserted, ends, straight⟩ := zedisHtSet_straight accepted
    (show (ht.entries next).psl - 1 < ht.capacity by omega) ordered.small
    (bury_clear ordered found within covers.1 differs passed) fun taken => absurd taken vacant
  unfold StraightEnds at straight
  rw [if_neg vacant, show walkSlot (bury ht (walkSlot ht key d)) (ht.entries next).key
    ((ht.entries next).psl - 1) = walkSlot ht key d from passed] at straight
  obtain ⟨rfl, rfl⟩ := straight
  refine ⟨_, _, ends, fun unique => distinct ?_⟩
  have old : Function.update (bury ht (walkSlot ht key d)).entries (walkSlot ht key d)
      (placeEntry ((ht.entries next).psl - 1) (freshEntry (ht.entries next).key [])) next =
      ht.entries next := by
    rw [Function.update_of_ne distinct, bury_of_ne distinct]
  refine unique next within (walkSlot ht key d) inside ?_ ?_ ?_
  · simp only [afterSet]
    rw [old]
    exact covers.1
  · simp only [afterSet, Function.update_self]
    rfl
  · simp only [afterSet, Function.update_self]
    rw [old]
    rfl

end Copies

/-- **No copies, and no return of a deleted key**, in a run of safe calls. Safety is what this needs:
the deletion of a key is safe exactly when no set after it makes a second entry of a key. -/
theorem keys_unique_and_stay_deleted (ht : ZedisHashTable) (reach : ReachableBy SafeStep ht)
    (small : ht.capacity ≤ pslMod) :
    UniqueKeys ht.capacity ht.entries ∧
    (∀ key after, SafeDel ht key → zedisHtDel ht key = some (0, after) →
      ∀ ops later, Run htStep (fun s op => SafeStep s op ∧ ¬ Stores key s op) after ops later →
        ∀ valueCap, zedisHtGet later key valueCap = some none) ∧
    ∀ key rc after, zedisHtDel ht key = some (rc, after) →
      (SafeDel ht key ↔ ∀ other value rc' later, zedisHtSet after other value = some (rc', later) →
        UniqueKeys later.capacity later.entries) := by
  have ordered := reach.ordered small
  refine ⟨ordered.order.unique, ?_, ?_⟩
  · intro key after safe deleted ops later run valueCap
    obtain ⟨map, represents⟩ := ordered.exists_represents
    obtain ⟨after', deleted', -, kept, updated⟩ := zedisHtDel_represents ordered represents safe
    rw [deleted', Option.some.injEq, Prod.mk.injEq] at deleted
    obtain ⟨-, rfl⟩ := deleted
    have last := run.invariant
      (fun s => Ordered s ∧ ∀ value, ¬ Holds s.capacity s.entries key value)
      (fun s op next inv ok taken => ⟨htStep_ordered inv.1 ok.1 taken,
        htStep_absent inv.1 ok.1 ok.2 taken inv.2⟩)
      ⟨kept, fun value => by rw [← updated, Function.update_self]; nofun⟩
    exact last.1.get_none last.2 valueCap
  · intro key rc after deleted
    constructor
    · intro safe other value rc' later stored
      have removed : htStep ht (.del key) = some after := by
        simp only [htStep, deleted, Option.map_some]
      have added : htStep after (.set other value) = some later := by
        simp only [htStep, stored, Option.map_some]
      have kept : Ordered after := htStep_ordered ordered (show SafeStep ht (.del key) from safe) removed
      have next : Ordered later :=
        htStep_ordered kept (show SafeStep after (.set other value) from trivial) added
      exact next.order.unique
    · intro unique d found covers
      obtain ⟨other, later, stored, twice⟩ := set_after_bury ordered found covers
      rw [zedisHtDel_of_found (probe_of_found found ordered.inv.positive)] at deleted
      cases deleted
      exact twice (unique other [] 0 later stored)

/-- The keys `a`, `i` and `q` have home slot `4` of eight and stand in the slots `4`, `5` and `6`. -/
def sameHome : List HtOp := [.set [97] [49], .set [105] [50], .set [113] [51]]

/-- The last of the three is deleted, and stays deleted while `i` is stored again. -/
theorem keys_unique_and_stay_deleted_sameHome :
    ∃ ht, ReachableBy SafeStep ht ∧ ht.capacity ≤ pslMod ∧ UniqueKeys ht.capacity ht.entries ∧
      ∃ after later, zedisHtDel ht [113] = some (0, after) ∧
        htStep after (.set [105] [54]) = some later ∧
        ∀ valueCap, zedisHtGet later [113] valueCap = some none := by
  obtain ⟨ht, returned⟩ := Option.isSome_iff_exists.mp
    (show (replay htStep (smallTable 8) sameHome).isSome by decide)
  have reach : ReachableBy SafeStep ht := reachable_of_replay (by decide)
    (fun _ op member => by
      simp only [sameHome, List.mem_cons, List.not_mem_nil, or_false] at member
      rcases member with rfl | rfl | rfl <;> trivial) returned
  have capacity : (replay htStep (smallTable 8) sameHome).map (fun ht => ht.capacity) = some 8 := by
    decide
  have placed : (replay htStep (smallTable 8) sameHome).map (fun ht =>
      decide (FoundAt ht [113] 2 ∧ (ht.entries ((walkSlot ht [113] 2 + 1) % ht.capacity)).state
        = .empty)) = some true := by decide
  have deletes : ((replay htStep (smallTable 8) sameHome).bind fun ht =>
      (zedisHtDel ht [113]).bind fun deleted =>
        (htStep deleted.2 (.set [105] [54])).map fun _ => deleted.1) = some 0 := by decide
  rw [returned, Option.map_some, Option.some.injEq] at capacity placed
  rw [returned, Option.bind_some] at deletes
  obtain ⟨found, empty⟩ := of_decide_eq_true placed
  obtain ⟨⟨rc, after⟩, deleted, rest⟩ := Option.bind_eq_some_iff.mp deletes
  obtain ⟨later, stored, rfl⟩ := Option.map_eq_some_iff.mp rest
  have small : ht.capacity ≤ pslMod := by rw [capacity]; decide
  have safe : SafeDel ht [113] := by
    intro d other covers
    rw [other.unique found, Covers, empty] at covers
    cases covers.1
  obtain ⟨unique, stays, -⟩ := keys_unique_and_stay_deleted ht reach small
  refine ⟨ht, reach, small, unique, after, later, deleted, stored, ?_⟩
  refine stays [113] after safe deleted [.set [105] [54]] later ?_
  refine .cons ⟨trivial, ?_⟩ stored (.nil later)
  rintro ⟨value, next, same, -⟩
  cases same

/-- **A key is stored twice, and comes back after its deletion.** The keys `a`, `i` and `q` stand in
the slots `4`, `5` and `6`, `i` is deleted, and `q` stored again takes slot `5` as well. Its deletion
empties slot `5`; storing `i` there again makes the copy in slot `6` visible. -/
theorem key_duplicated_and_resurrected :
    (¬ ∀ ht, Reachable ht → UniqueKeys ht.capacity ht.entries) ∧
    ¬ ∀ ht, Reachable ht → ∀ key after, zedisHtDel ht key = some (0, after) →
      ∀ ops later, Run htStep (fun s op => ¬ Stores key s op) after ops later →
        ∀ valueCap, zedisHtGet later key valueCap = some none := by
  obtain ⟨ht, returned⟩ := Option.isSome_iff_exists.mp (show (replay htStep (smallTable 8)
    (sameHome ++ [.del [105], .set [113] [53]])).isSome by decide)
  have reach : Reachable ht := reachable_of_replay (by decide) (fun _ _ _ => trivial) returned
  refine ⟨fun unique => ?_, fun staysDeleted => ?_⟩
  · have copies : (replay htStep (smallTable 8) (sameHome ++ [.del [105], .set [113] [53]])).map
        (fun ht => decide (5 < ht.capacity ∧ 6 < ht.capacity ∧ (ht.entries 5).state = .occupied ∧
          (ht.entries 6).state = .occupied ∧ (ht.entries 5).key = (ht.entries 6).key)) =
        some true := by decide
    rw [returned, Option.map_some, Option.some.injEq] at copies
    obtain ⟨inside, inside', taken, taken', sameKey⟩ := of_decide_eq_true copies
    have same := unique ht reach 5 inside 6 inside' taken taken' sameKey
    cases same
  · have back : ((replay htStep (smallTable 8) (sameHome ++ [.del [105], .set [113] [53]])).bind
        fun ht => (zedisHtDel ht [113]).bind fun deleted =>
          (htStep deleted.2 (.set [105] [54])).bind fun later =>
            (zedisHtGet later [113] 64).map fun got => (deleted.1, got)) =
        some (0, some ⟨[51, 0], 1⟩) := by decide
    rw [returned, Option.bind_some] at back
    obtain ⟨⟨rc, after⟩, deleted, rest⟩ := Option.bind_eq_some_iff.mp back
    obtain ⟨later, stored, rest⟩ := Option.bind_eq_some_iff.mp rest
    obtain ⟨got, found, same⟩ := Option.map_eq_some_iff.mp rest
    cases same
    have run : Run htStep (fun s op => ¬ Stores [113] s op) after [.set [105] [54]] later := by
      refine .cons ?_ stored (.nil later)
      rintro ⟨value, next, same, -⟩
      cases same
    have miss := staysDeleted ht reach [113] after deleted _ later run 64
    rw [found] at miss
    cases miss

end Zedis.HashTable

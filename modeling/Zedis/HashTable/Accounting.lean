/-
**Counts, loops and the load limit.**

In every reachable table of fewer than `2 ^ 32` slots `count` is the number of occupied slots, every
`psl` is the distance of its entry from home, and the three `for (;;)` loops return: no bound above
`capacity + 1` slots changes what they do (`count_and_loops`). What an accepted set stored is read back
(`set_then_get`).

`liveKeys` are the keys that a lookup finds. They are at most `count` (`card_liveKeys_le`), but the load
check asks for `count` and not for them, and does so before the key is looked up. So a full table
refuses an overwrite (`overwrite_refused`); `set_refusal_iff` says for which calls the check means what
it should.
-/

import Zedis.HashTable.Delete
import Zedis.HashTable.ReadBack

namespace Zedis.HashTable

open Zedis.Lib

/-! ### The loops without their bound -/

section Loops

theorem setLoop_mono {capacity : Nat} {hash : UInt32} {key value : Bytes} :
    ∀ {fuel fuel' : Nat}, fuel ≤ fuel' → ∀ {entries idx psl incoming result},
      setLoop capacity hash key value fuel entries idx psl incoming = some result →
      setLoop capacity hash key value fuel' entries idx psl incoming = some result
  | 0, _, _, _, _, _, _, _, returned => nomatch returned
  | fuel + 1, 0, less, _, _, _, _, _, _ => absurd less (Nat.not_succ_le_zero fuel)
  | fuel + 1, fuel' + 1, less, entries, idx, psl, incoming, result, returned => by
    have later := @setLoop_mono capacity hash key value fuel fuel' (Nat.le_of_succ_le_succ less)
    simp only [setLoop] at returned ⊢
    split
    · rename_i free
      rwa [if_pos free] at returned
    · rename_i occupied
      rw [if_neg occupied] at returned
      split
      · rename_i found
        rwa [if_pos found] at returned
      · rename_i differs
        rw [if_neg differs] at returned
        split
        · rename_i nearer
          rw [if_pos nearer] at returned
          exact later returned
        · rename_i far
          rw [if_neg far] at returned
          exact later returned

theorem probeLoop_mono {ht : ZedisHashTable} {hash : UInt32} {key : Bytes} :
    ∀ {fuel fuel' : Nat}, fuel ≤ fuel' → ∀ {idx psl answer},
      probeLoop ht hash key fuel idx psl = some answer → probeLoop ht hash key fuel' idx psl = some answer
  | 0, _, _, _, _, _, returned => nomatch returned
  | fuel + 1, 0, less, _, _, _, _ => absurd less (Nat.not_succ_le_zero fuel)
  | fuel + 1, fuel' + 1, less, idx, psl, answer, returned => by
    have later := @probeLoop_mono ht hash key fuel fuel' (Nat.le_of_succ_le_succ less)
    simp only [probeLoop] at returned ⊢
    split
    · rename_i empty
      rwa [if_pos empty] at returned
    · rename_i taken
      rw [if_neg taken] at returned
      split
      · rename_i found
        rwa [if_pos found] at returned
      · rename_i differs
        rw [if_neg differs] at returned
        split
        · rename_i nearer
          rwa [if_pos nearer] at returned
        · rename_i far
          rw [if_neg far] at returned
          exact later returned

end Loops

/-! ### Counts -/

section Counts

variable {ht : ZedisHashTable} {key value : Bytes}

theorem TableInv.count_le (inv : TableInv ht) : ht.count ≤ ht.capacity := by
  rw [inv.count_eq]
  refine (Finset.card_le_card (Finset.filter_subset _ _)).trans ?_
  rw [Finset.card_range]

/-- The distance of a placed entry from home. -/
theorem Placed.psl_eq {capacity slot : Nat} {e : HtEntry} (placed : Placed capacity e slot) :
    (e.psl : Int) = ((slot : Int) - e.hash.toNat % capacity) % capacity := by
  have lap := placed.lap
  have back : ((slot : Int) - e.hash.toNat % capacity) % capacity = (e.psl : Int) % capacity := by
    rw [← placed.slot_eq, slotAt, Int.natCast_emod, Int.natCast_add, ← Int.sub_emod,
      add_sub_cancel_left]
  rw [back, Int.emod_eq_of_lt (Int.natCast_nonneg _) (Int.ofNat_lt.mpr lap)]

/-- A set that is not refused leaves its loop within a lap and one slot. -/
theorem setLoop_returns (inv : TableInv ht) (accepted : ¬ Refused ht key value) :
    ∃ result, setLoop ht.capacity (htHash key) key value (ht.capacity + 1) ht.entries
      (homeSlot ht (htHash key)) 0 (freshEntry key value) = some result := by
  obtain ⟨fits, room⟩ := not_refused accepted
  obtain ⟨stop, lap, free⟩ := exists_free inv key room
  obtain ⟨after, inserted, ends, -⟩ := setLoop_rule (carry_rule lap fits.value_le free)
    (ht.capacity + 1) ht.entries 0 0 (freshEntry key value) (carry_start inv fits stop) (by omega)
  exact ⟨(after, inserted), ends⟩

/-- **The loops of the table return for the key**, after `capacity + 1` slots at most: with every larger
bound they do the same. -/
structure LoopsReturn (ht : ZedisHashTable) (key : Bytes) : Prop where
  lookup : ∃ answer, ∀ fuel, ht.capacity + 1 ≤ fuel →
    probeLoop ht (htHash key) key fuel (homeSlot ht (htHash key)) 0 = some answer
  insert : ∀ value, ¬ Refused ht key value → ∃ result, ∀ fuel, ht.capacity + 1 ≤ fuel →
    setLoop ht.capacity (htHash key) key value fuel ht.entries (homeSlot ht (htHash key)) 0
      (freshEntry key value) = some result
  set : ∀ value, (zedisHtSet ht key value).isSome
  get : ∀ valueCap, (zedisHtGet ht key valueCap).isSome
  del : (zedisHtDel ht key).isSome

theorem TableInv.loopsReturn (inv : TableInv ht) (key : Bytes) : LoopsReturn ht key where
  lookup := by
    have returned : ∃ answer, probe ht key = some answer := by
      rcases probe_cases inv key with ⟨d, -, answer⟩ | ⟨-, answer⟩
      · exact ⟨_, answer⟩
      · exact ⟨_, answer⟩
    obtain ⟨answer, returned⟩ := returned
    exact ⟨answer, fun fuel enough => probeLoop_mono enough returned⟩
  insert := fun value accepted => by
    obtain ⟨result, returned⟩ := setLoop_returns inv accepted
    exact ⟨result, fun fuel enough => setLoop_mono enough returned⟩
  set := fun value => by
    obtain ⟨rc, after, returned, -⟩ := zedisHtSet_inv inv key value
    rw [returned]
    rfl
  get := fun valueCap => by
    rcases zedisHtGet_cases inv key valueCap with ⟨d, -, hit⟩ | ⟨-, miss⟩
    · rw [hit]
      rfl
    · rw [miss]
      rfl
  del := by
    obtain ⟨rc, after, returned, -⟩ := zedisHtDel_inv inv key
    rw [returned]
    rfl

end Counts

/-- **Counts and distances are exact, and every loop returns.** -/
theorem count_and_loops (ht : ZedisHashTable) (reach : Reachable ht) (small : ht.capacity < 2 ^ 32) :
    ht.count = (occupiedSlots ht).card ∧ ht.count ≤ ht.capacity ∧
      (∀ slot < ht.capacity, (ht.entries slot).state = .occupied →
        ((ht.entries slot).psl : Int) =
          ((slot : Int) - (ht.entries slot).hash.toNat % ht.capacity) % ht.capacity) ∧
      ∀ key, LoopsReturn ht key := by
  have inv := reach.inv
  refine ⟨inv.count_eq, inv.count_le, fun slot inside occupied => ?_, inv.loopsReturn⟩
  exact (inv.placed small.le slot inside occupied).psl_eq

/-- Three keys with one home slot, the second of them deleted. -/
theorem count_and_loops_sharedHome : ∃ ht, Reachable ht ∧ ht.capacity < 2 ^ 32 ∧ ht.count = 2 ∧
    ht.count = (occupiedSlots ht).card ∧ ∀ key, LoopsReturn ht key := by
  have counted : (replay htStep (smallTable 4) (sharedHome ++ [.del [101]])).map
      (fun ht => (ht.capacity, ht.count)) = some (4, 2) := by decide
  obtain ⟨ht, returned, seen⟩ := Option.map_eq_some_iff.mp counted
  obtain ⟨capacity, count⟩ := Prod.mk.inj seen
  have reach : Reachable ht := reachable_of_replay (by decide) (fun _ _ _ => trivial) returned
  have small : ht.capacity < 2 ^ 32 := by rw [capacity]; decide
  obtain ⟨counts, -, -, loops⟩ := count_and_loops ht reach small
  exact ⟨ht, reach, small, count, counts, loops⟩

/-- **What an accepted set stored, the next get returns**, with its bytes and its length. -/
theorem set_then_get (ht : ZedisHashTable) (reach : Reachable ht) (key value : Bytes)
    {after : ZedisHashTable} (accepted : zedisHtSet ht key value = some (0, after)) {valueCap : Nat}
    (longer : value.length < valueCap) :
    zedisHtGet after key valueCap = some (some ⟨value ++ [0], value.length⟩) := by
  rw [zedisHtSet_get reach.inv accepted valueCap, copyOut, if_pos (Nat.zero_lt_of_lt longer),
    if_pos longer, List.take_length]

/-- A key is set where a deletion has left a tombstone. -/
theorem set_then_get_sharedHome : ∃ ht after, Reachable ht ∧
    zedisHtSet ht [105] [52, 53] = some (0, after) ∧
    zedisHtGet after [105] 64 = some (some ⟨[52, 53, 0], 2⟩) := by
  obtain ⟨ht, returned⟩ := Option.isSome_iff_exists.mp
    (show (replay htStep (smallTable 4) (sharedHome ++ [.del [101]])).isSome by decide)
  have accepts : ((replay htStep (smallTable 4) (sharedHome ++ [.del [101]])).bind fun ht =>
      zedisHtSet ht [105] [52, 53]).map Prod.fst = some 0 := by decide
  rw [returned, Option.bind_some] at accepts
  obtain ⟨⟨rc, after⟩, set, zero⟩ := Option.map_eq_some_iff.mp accepts
  cases zero
  have reach : Reachable ht := reachable_of_replay (by decide) (fun _ _ _ => trivial) returned
  exact ⟨ht, after, reach, set, set_then_get ht reach [105] [52, 53] set (by decide)⟩

/-! ### Live keys -/

section Live

variable {ht : ZedisHashTable} {key value : Bytes}

/-- The keys that `zedis_ht_get` finds. -/
def liveKeys (ht : ZedisHashTable) : Finset Bytes :=
  ((occupiedSlots ht).image fun slot => (ht.entries slot).key).filter fun key =>
    (zedisHtGet ht key 0).any Option.isSome

/-- A key is live if a get finds it, whatever the buffer. -/
theorem mem_liveKeys (inv : TableInv ht) (key : Bytes) (valueCap : Nat) :
    key ∈ liveKeys ht ↔ ∃ hit, zedisHtGet ht key valueCap = some (some hit) := by
  rw [liveKeys, Finset.mem_filter, Finset.mem_image]
  rcases probe_cases inv key with ⟨d, found, -⟩ | ⟨missing, -⟩
  · have hit := zedisHtGet_of_found inv.positive found
    refine iff_of_true ⟨⟨walkSlot ht key d, ?_, found.2.key⟩, ?_⟩ ⟨_, hit valueCap⟩
    · exact mem_occupiedSlots.mpr ⟨keySlot_lt inv.positive key d, found.2.occupied⟩
    · rw [hit 0]
      rfl
  · have miss : ∀ valueCap, zedisHtGet ht key valueCap = some none := fun valueCap => by
      rcases zedisHtGet_cases inv key valueCap with ⟨d, found, -⟩ | ⟨-, miss⟩
      · exact absurd found (missing d)
      · exact miss
    refine iff_of_false ?_ ?_
    · rintro ⟨-, isHit⟩
      rw [miss 0] at isHit
      cases isHit
    · rintro ⟨hit, isHit⟩
      rw [miss valueCap] at isHit
      cases isHit

/-- **There are at most `count` live keys.** -/
theorem card_liveKeys_le (inv : TableInv ht) : (liveKeys ht).card ≤ ht.count := by
  rw [inv.count_eq]
  exact (Finset.card_le_card (Finset.filter_subset _ _)).trans Finset.card_image_le

/-- A set returns `-1` exactly if it is refused before its loop. -/
theorem zedisHtSet_fails_iff (inv : TableInv ht) :
    (∃ after, zedisHtSet ht key value = some (-1, after)) ↔ Refused ht key value := by
  constructor
  · rintro ⟨after, failed⟩
    by_contra accepted
    obtain ⟨fits, room⟩ := not_refused accepted
    obtain ⟨stop, lap, free⟩ := exists_free inv key room
    obtain ⟨entries, inserted, ends, -⟩ := zedisHtSet_of_rule accepted
      (carry_rule lap fits.value_le free) (carry_start inv fits stop) lap
    rw [ends] at failed
    cases failed
  · exact fun refused => ⟨ht, zedisHtSet_refused refused⟩

/-- The key or the value is longer than an entry holds. -/
def TooLong (key value : Bytes) : Prop :=
  key.length > zedisHtMaxKey ∨ value.length > zedisHtMaxValue

instance (key value : Bytes) : Decidable (TooLong key value) := inferInstanceAs (Decidable (_ ∨ _))

/-- The key is new, and the live keys fill seven tenths of the table. -/
def NoRoom (ht : ZedisHashTable) (key : Bytes) : Prop :=
  key ∉ liveKeys ht ∧ ht.capacity * 7 ≤ (liveKeys ht).card * 10

end Live

/-- **A set is refused for the right reason** exactly if its key or value is too long, or the load check
passes, or the key is new and the live keys alone fill the table. -/
theorem set_refusal_iff (ht : ZedisHashTable) (reach : Reachable ht) (key value : Bytes) :
    (∀ other valueCap, other ∈ liveKeys ht ↔ ∃ hit, zedisHtGet ht other valueCap = some (some hit)) ∧
      (((∃ after, zedisHtSet ht key value = some (-1, after)) ↔ TooLong key value ∨ NoRoom ht key) ↔
        TooLong key value ∨ ht.count * 10 < ht.capacity * 7 ∨ NoRoom ht key) := by
  have inv := reach.inv
  have live := card_liveKeys_le inv
  refine ⟨mem_liveKeys inv, ?_⟩
  rw [zedisHtSet_fails_iff inv]
  by_cases long : TooLong key value
  · exact iff_of_true (iff_of_true (Or.inl long) (Or.inl long)) (Or.inl long)
  · by_cases room : ht.count * 10 < ht.capacity * 7
    · have accepted : ¬ Refused ht key value := fun refused =>
        refused.elim long fun full => absurd room (Nat.not_lt.mpr full)
      have notFull : ¬ NoRoom ht key := fun full => by
        have filled := full.2
        omega
      exact iff_of_true (iff_of_false accepted fun why => why.elim long notFull) (Or.inr (Or.inl room))
    · have refused : Refused ht key value := Or.inr (Nat.not_lt.mp room)
      constructor
      · exact fun law => (law.mp refused).imp_right Or.inr
      · intro why
        exact iff_of_true refused (why.imp_right fun full => full.resolve_left room)

/-- In a table of one slot, a set of the key that is there returns `-1`. -/
theorem overwrite_refused : ∃ ht after hit, Reachable ht ∧
    zedisHtSet ht [97] [50] = some (-1, after) ∧ zedisHtGet ht [97] 64 = some (some hit) ∧
    ¬ TooLong [97] [50] ∧
    ¬ ((∃ after, zedisHtSet ht [97] [50] = some (-1, after)) ↔ TooLong [97] [50] ∨ NoRoom ht [97]) := by
  have seen : (replay htStep (smallTable 1) [.set [97] [49]]).bind
      (fun ht => (zedisHtSet ht [97] [50]).bind fun set =>
        (zedisHtGet ht [97] 64).map fun got => (set.1, got)) = some (-1, some ⟨[49, 0], 1⟩) := by decide
  obtain ⟨ht, returned, seen⟩ := Option.bind_eq_some_iff.mp seen
  obtain ⟨⟨rc, after⟩, set, seen⟩ := Option.bind_eq_some_iff.mp seen
  obtain ⟨got, gotten, seen⟩ := Option.map_eq_some_iff.mp seen
  obtain ⟨failed, hit⟩ := Prod.mk.inj seen
  subst failed hit
  have reach : Reachable ht := reachable_of_replay (by decide) (fun _ _ _ => trivial) returned
  have short : ¬ TooLong [97] [50] := by decide
  refine ⟨ht, after, _, reach, set, gotten, short, fun law => ?_⟩
  rcases law.mp ⟨after, set⟩ with long | ⟨missing, -⟩
  · exact short long
  · exact missing ((mem_liveKeys reach.inv [97] 64).mpr ⟨_, gotten⟩)

/-- An overwrite in a table with room. -/
theorem set_refusal_iff_sharedHome : ∃ ht, Reachable ht ∧ ht.count * 10 < ht.capacity * 7 ∧
    ((∃ after, zedisHtSet ht [101] [52] = some (-1, after)) ↔ TooLong [101] [52] ∨ NoRoom ht [101]) := by
  have counted : (replay htStep (smallTable 4) (sharedHome ++ [.del [105]])).map
      (fun ht => (ht.capacity, ht.count)) = some (4, 2) := by decide
  obtain ⟨ht, returned, seen⟩ := Option.map_eq_some_iff.mp counted
  obtain ⟨capacity, count⟩ := Prod.mk.inj seen
  have reach : Reachable ht := reachable_of_replay (by decide) (fun _ _ _ => trivial) returned
  have room : ht.count * 10 < ht.capacity * 7 := by rw [capacity, count]; decide
  exact ⟨ht, reach, room, (set_refusal_iff ht reach [101] [52]).2.mpr (Or.inr (Or.inl room))⟩

end Zedis.HashTable

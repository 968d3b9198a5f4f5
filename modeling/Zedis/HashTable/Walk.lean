/-
**The walk of a key.**

Every loop of the table walks the slots `walkSlot ht key 0, 1, …` of a key. `Passes ht key d` says
that the lookup loop goes on after its slot `d`; the loop's answer is read off the first slot it
does not pass (`probe_of_stop`), and a key is found at distance `d` when it passes every slot before
and matches there (`FoundAt`, `probe_eq_some_iff`).
-/

import Zedis.HashTable.Model
import Zedis.Lib.Ring
import Mathlib.Tactic

namespace Zedis.HashTable

open Zedis.Lib

/-- The slot a walk for `key` visits after `d` steps in a table of `capacity` slots. -/
def keySlot (capacity : Nat) (key : Bytes) (d : Nat) : Nat :=
  slotAt capacity (htHash key).toNat d

/-- The slot a walk for `key` visits after `d` steps. -/
abbrev walkSlot (ht : ZedisHashTable) (key : Bytes) (d : Nat) : Nat := keySlot ht.capacity key d

/-- The entry a walk for `key` visits after `d` steps. -/
def walkEntry (ht : ZedisHashTable) (key : Bytes) (d : Nat) : HtEntry :=
  ht.entries (walkSlot ht key d)

/-- The entry at distance `d` is the key's. -/
def Matches (ht : ZedisHashTable) (key : Bytes) (d : Nat) : Prop :=
  entryKeyMatch (walkEntry ht key d) (htHash key) key = true

/-- The lookup loop goes on after distance `d`. -/
def Passes (ht : ZedisHashTable) (key : Bytes) (d : Nat) : Prop :=
  (walkEntry ht key d).state ≠ .empty ∧ ¬ Matches ht key d ∧ d % pslMod ≤ (walkEntry ht key d).psl

/-- **The key is found at distance `d`.** -/
def FoundAt (ht : ZedisHashTable) (key : Bytes) (d : Nat) : Prop :=
  (∀ j < d, Passes ht key j) ∧ Matches ht key d

instance (ht : ZedisHashTable) (key : Bytes) (d : Nat) : Decidable (Matches ht key d) :=
  inferInstanceAs (Decidable (_ = _))

instance (ht : ZedisHashTable) (key : Bytes) (d : Nat) : Decidable (Passes ht key d) :=
  inferInstanceAs (Decidable (_ ∧ _ ∧ _))

instance (ht : ZedisHashTable) (key : Bytes) (d : Nat) : Decidable (FoundAt ht key d) :=
  inferInstanceAs (Decidable (_ ∧ _))

theorem entryKeyMatch_iff {e : HtEntry} {hash : UInt32} {key : Bytes} :
    entryKeyMatch e hash key = true ↔ e.state = .occupied ∧ e.hash = hash ∧ e.key = key := by
  simp only [entryKeyMatch, Bool.and_eq_true, beq_iff_eq]
  constructor
  · rintro ⟨⟨⟨occupied, sameHash⟩, -⟩, sameKey⟩
    exact ⟨occupied, sameHash, sameKey⟩
  · rintro ⟨occupied, sameHash, sameKey⟩
    exact ⟨⟨⟨occupied, sameHash⟩, by rw [sameKey]⟩, sameKey⟩

theorem Matches.occupied {ht : ZedisHashTable} {key : Bytes} {d : Nat} (found : Matches ht key d) :
    (walkEntry ht key d).state = .occupied :=
  (entryKeyMatch_iff.mp found).1

theorem Matches.key {ht : ZedisHashTable} {key : Bytes} {d : Nat} (found : Matches ht key d) :
    (walkEntry ht key d).key = key :=
  (entryKeyMatch_iff.mp found).2.2

theorem keySlot_succ (capacity : Nat) (key : Bytes) (d : Nat) :
    (keySlot capacity key d + 1) % capacity = keySlot capacity key (d + 1) :=
  slotAt_succ _ _ _

/-! ### The lookup loop -/

section Probe

variable (ht : ZedisHashTable) (key : Bytes)

/-- **The loop's answer is that of the first slot it does not pass.** -/
theorem probeLoop_of_stop : ∀ (fuel d steps : Nat), steps < fuel →
    (∀ j < steps, Passes ht key (d + j)) → ¬ Passes ht key (d + steps) →
    probeLoop ht (htHash key) key fuel (walkSlot ht key d) (d % pslMod) =
      some (if Matches ht key (d + steps) then some (walkSlot ht key (d + steps)) else none)
  | 0, _, _, bound, _, _ => absurd bound (Nat.not_lt_zero _)
  | fuel + 1, d, 0, _, _, stops => by
    unfold probeLoop
    simp only [Nat.add_zero] at stops ⊢
    change (if (walkEntry ht key d).state = .empty then some none
      else if Matches ht key d then some (some (walkSlot ht key d))
      else if d % pslMod > (walkEntry ht key d).psl then some none else _) = _
    by_cases empty : (walkEntry ht key d).state = .empty
    · have differs : ¬ Matches ht key d := fun found => by
        rw [found.occupied] at empty
        cases empty
      rw [if_pos empty, if_neg differs]
    · rw [if_neg empty]
      by_cases found : Matches ht key d
      · rw [if_pos found, if_pos found]
      · have nearer : d % pslMod > (walkEntry ht key d).psl := by
          by_contra far
          exact stops ⟨empty, found, Nat.le_of_not_lt far⟩
        rw [if_neg found, if_pos nearer, if_neg found]
  | fuel + 1, d, steps + 1, bound, passes, stops => by
    have here : Passes ht key d := passes 0 (Nat.succ_pos _)
    have next := probeLoop_of_stop fuel (d + 1) steps (by omega)
      (fun j below => by
        rw [show d + 1 + j = d + (j + 1) by omega]
        exact passes (j + 1) (by omega))
      (by rw [show d + 1 + steps = d + (steps + 1) by omega]; exact stops)
    rw [show d + 1 + steps = d + (steps + 1) by omega] at next
    rw [← next, probeLoop]
    change (if (walkEntry ht key d).state = .empty then some none
      else if Matches ht key d then some (some (walkSlot ht key d))
      else if d % pslMod > (walkEntry ht key d).psl then some none else _) = _
    rw [if_neg here.1, if_neg here.2.1, if_neg (Nat.not_lt.mpr here.2.2), keySlot_succ,
      Nat.mod_add_mod]

theorem probe_of_stop {steps : Nat} (bound : steps ≤ ht.capacity)
    (passes : ∀ j < steps, Passes ht key j) (stops : ¬ Passes ht key steps) :
    probe ht key = some (if Matches ht key steps then some (walkSlot ht key steps) else none) := by
  have loop := probeLoop_of_stop ht key (ht.capacity + 1) 0 steps (by omega)
    (fun j below => by rw [Nat.zero_add]; exact passes j below) (by rwa [Nat.zero_add])
  rwa [Nat.zero_add] at loop

variable {ht key}

theorem FoundAt.not_passes {d : Nat} (found : FoundAt ht key d) : ¬ Passes ht key d :=
  fun passes => passes.2.1 found.2

/-- A key is found at one distance only. -/
theorem FoundAt.unique {d d' : Nat} (found : FoundAt ht key d) (found' : FoundAt ht key d') :
    d = d' := by
  rcases Nat.lt_trichotomy d d' with less | same | more
  · exact absurd (found'.1 d less) found.not_passes
  · exact same
  · exact absurd (found.1 d' more) found'.not_passes

/-- A key is found within the first lap. -/
theorem FoundAt.lt_capacity {d : Nat} (found : FoundAt ht key d) (positive : 0 < ht.capacity) :
    d < ht.capacity := by
  by_contra far
  have lap : walkSlot ht key (d - ht.capacity) = walkSlot ht key d := by
    have again := slotAt_add_size ht.capacity (htHash key).toNat (d - ht.capacity)
    rw [Nat.sub_add_cancel (Nat.le_of_not_lt far)] at again
    exact again.symm
  have earlier : Matches ht key (d - ht.capacity) := by
    unfold Matches walkEntry
    rw [lap]
    exact found.2
  exact (found.1 (d - ht.capacity) (by omega)).2.1 earlier

theorem probe_of_found {d : Nat} (found : FoundAt ht key d) (positive : 0 < ht.capacity) :
    probe ht key = some (some (walkSlot ht key d)) := by
  rw [probe_of_stop ht key (found.lt_capacity positive).le found.1 found.not_passes,
    if_pos found.2]

variable (ht key) in
/-- What the loop finds is the first match of the walk. -/
theorem found_of_probeLoop : ∀ (fuel d : Nat) {slot : Nat}, (∀ j < d, Passes ht key j) →
    probeLoop ht (htHash key) key fuel (walkSlot ht key d) (d % pslMod) = some (some slot) →
    ∃ d', FoundAt ht key d' ∧ slot = walkSlot ht key d'
  | 0, _, _, _, answer => nomatch answer
  | fuel + 1, d, slot, passes, answer => by
    unfold probeLoop at answer
    change (if (walkEntry ht key d).state = .empty then some none
      else if Matches ht key d then some (some (walkSlot ht key d))
      else if d % pslMod > (walkEntry ht key d).psl then some none
      else probeLoop ht (htHash key) key fuel ((walkSlot ht key d + 1) % ht.capacity)
        ((d % pslMod + 1) % pslMod)) = _ at answer
    split at answer
    · cases answer
    · rename_i taken
      split at answer
      · rename_i found
        cases answer
        exact ⟨d, ⟨passes, found⟩, rfl⟩
      · rename_i differs
        split at answer
        · cases answer
        · rename_i far
          rw [keySlot_succ, Nat.mod_add_mod] at answer
          refine found_of_probeLoop fuel (d + 1) (fun j below => ?_) answer
          rcases Nat.lt_succ_iff_lt_or_eq.mp below with earlier | rfl
          · exact passes j earlier
          · exact ⟨taken, differs, Nat.not_lt.mp far⟩

/-- **A hit is an entry that the walk finds**, in any table. -/
theorem found_of_get {valueCap : Nat} {hit : HtHit} (got : zedisHtGet ht key valueCap = some (some hit)) :
    ∃ d, FoundAt ht key d ∧ hit = copyOut (walkEntry ht key d).value valueCap := by
  unfold zedisHtGet at got
  split at got
  · cases got
  · obtain ⟨found, probed, isHit⟩ := Option.map_eq_some_iff.mp got
    obtain ⟨slot, rfl, rfl⟩ := Option.map_eq_some_iff.mp isHit
    obtain ⟨d, isFound, rfl⟩ := found_of_probeLoop ht key (ht.capacity + 1) 0 nofun probed
    exact ⟨d, isFound, rfl⟩

end Probe

end Zedis.HashTable

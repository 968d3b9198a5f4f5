/-
**The insert loop.**

`setLoop_rule` is the rule for the loop of `zedis_ht_set`: an invariant of the entries, the number
of steps taken, the counter and the carried entry that every pass and every swap keeps, and that
cannot go past some step `stop`, ends in one of the loop's two exits.
-/

import Zedis.HashTable.Walk

namespace Zedis.HashTable

open Zedis.Lib

/-- The entry the loop writes for the carried one. -/
def placeEntry (psl : Nat) (incoming : HtEntry) : HtEntry :=
  ⟨.occupied, psl, incoming.hash, incoming.key, incoming.value⟩

/-- Placing an entry in an occupied slot leaves the states. -/
theorem state_place {entries : Nat → HtEntry} {slot : Nat} (occupied : (entries slot).state = .occupied)
    (psl : Nat) (incoming : HtEntry) (other : Nat) :
    (Function.update entries slot (placeEntry psl incoming) other).state = (entries other).state := by
  by_cases same : other = slot
  · rw [same, Function.update_self, occupied]
    rfl
  · rw [Function.update_of_ne same]

/-- What the loop can do at the slot of step `t`: place the carried entry, update the key's own
entry, swap, or pass. `Inv` is kept by the last two, `Post` is reached by the first two. -/
structure SetLoopRule (capacity : Nat) (key value : Bytes) (stop : Nat)
    (Inv : (Nat → HtEntry) → Nat → Nat → HtEntry → Prop)
    (Post : (Nat → HtEntry) → Bool → Prop) : Prop where
  bounded : ∀ entries t psl incoming, Inv entries t psl incoming → t ≤ stop
  place : ∀ entries t psl incoming, Inv entries t psl incoming →
    (entries (keySlot capacity key t)).state ≠ .occupied →
    Post (Function.update entries (keySlot capacity key t) (placeEntry psl incoming))
      true
  update : ∀ entries t psl incoming, Inv entries t psl incoming →
    entryKeyMatch (entries (keySlot capacity key t)) (htHash key) key = true →
    Post (Function.update entries (keySlot capacity key t)
      { entries (keySlot capacity key t) with value := value }) false
  swap : ∀ entries t psl incoming, Inv entries t psl incoming →
    (entries (keySlot capacity key t)).state = .occupied →
    ¬ entryKeyMatch (entries (keySlot capacity key t)) (htHash key) key = true →
    (entries (keySlot capacity key t)).psl < psl →
    Inv (Function.update entries (keySlot capacity key t) (placeEntry psl incoming))
      (t + 1) (((entries (keySlot capacity key t)).psl + 1) % pslMod)
      (entries (keySlot capacity key t))
  pass : ∀ entries t psl incoming, Inv entries t psl incoming →
    (entries (keySlot capacity key t)).state = .occupied →
    ¬ entryKeyMatch (entries (keySlot capacity key t)) (htHash key) key = true →
    psl ≤ (entries (keySlot capacity key t)).psl →
    Inv entries (t + 1) ((psl + 1) % pslMod) incoming

/-- **The rule of the insert loop.** -/
theorem setLoop_rule {capacity : Nat} {key value : Bytes} {stop : Nat}
    {Inv : (Nat → HtEntry) → Nat → Nat → HtEntry → Prop} {Post : (Nat → HtEntry) → Bool → Prop}
    (rule : SetLoopRule capacity key value stop Inv Post) :
    ∀ (fuel : Nat) (entries : Nat → HtEntry) (t psl : Nat) (incoming : HtEntry),
      Inv entries t psl incoming → stop < t + fuel →
      ∃ after inserted, setLoop capacity (htHash key) key value fuel entries
          (keySlot capacity key t) psl incoming = some (after, inserted) ∧
        Post after inserted := by
  intro fuel
  induction fuel with
  | zero =>
    intro entries t psl incoming inv bound
    have := rule.bounded _ _ _ _ inv
    omega
  | succ fuel ih =>
    intro entries t psl incoming inv bound
    rw [setLoop]
    by_cases occupied : (entries (keySlot capacity key t)).state = .occupied
    · have notFree : ¬ ((entries (keySlot capacity key t)).state = .empty ∨
          (entries (keySlot capacity key t)).state = .tombstone) := by
        rw [occupied]
        simp
      rw [if_neg notFree]
      by_cases found :
          entryKeyMatch (entries (keySlot capacity key t)) (htHash key) key = true
      · rw [if_pos found]
        exact ⟨_, _, rfl, rule.update _ _ _ _ inv found⟩
      · rw [if_neg found]
        by_cases nearer : (entries (keySlot capacity key t)).psl < psl
        · rw [if_pos nearer, keySlot_succ]
          exact ih _ _ _ _ (rule.swap _ _ _ _ inv occupied found nearer) (by omega)
        · rw [if_neg nearer, keySlot_succ]
          exact ih _ _ _ _ (rule.pass _ _ _ _ inv occupied found (Nat.le_of_not_lt nearer))
            (by omega)
    · have free : (entries (keySlot capacity key t)).state = .empty ∨
          (entries (keySlot capacity key t)).state = .tombstone := by
        cases state : (entries (keySlot capacity key t)).state with
        | empty => exact Or.inl rfl
        | occupied => exact absurd state occupied
        | tombstone => exact Or.inr rfl
      rw [if_pos free]
      exact ⟨_, _, rfl, rule.place _ _ _ _ inv occupied⟩

/-- The entry `zedis_ht_set` starts to carry. -/
def freshEntry (key value : Bytes) : HtEntry :=
  { zeroEntry with hash := htHash key, key := key, value := value }

/-- The table after the loop of `zedis_ht_set`. -/
def afterSet (ht : ZedisHashTable) (after : Nat → HtEntry) (inserted : Bool) : ZedisHashTable :=
  { ht with entries := after, count := if inserted then ht.count + 1 else ht.count }

/-- The set is refused before its loop. -/
def Refused (ht : ZedisHashTable) (key value : Bytes) : Prop :=
  (key.length > zedisHtMaxKey ∨ value.length > zedisHtMaxValue) ∨ ht.count * 10 ≥ ht.capacity * 7

instance (ht : ZedisHashTable) (key value : Bytes) : Decidable (Refused ht key value) :=
  inferInstanceAs (Decidable (_ ∨ _))

theorem zedisHtSet_refused {ht : ZedisHashTable} {key value : Bytes}
    (refused : Refused ht key value) : zedisHtSet ht key value = some (-1, ht) := by
  unfold zedisHtSet
  rcases refused with long | full
  · rw [if_pos long]
  · by_cases long : key.length > zedisHtMaxKey ∨ value.length > zedisHtMaxValue
    · rw [if_pos long]
    · rw [if_neg long, if_pos full]

/-- **A set that is not refused runs the loop**, and ends as the loop's rule says. -/
theorem zedisHtSet_of_rule {ht : ZedisHashTable} {key value : Bytes} {stop : Nat}
    {Inv : (Nat → HtEntry) → Nat → Nat → HtEntry → Prop} {Post : (Nat → HtEntry) → Bool → Prop}
    (accepted : ¬ Refused ht key value) (rule : SetLoopRule ht.capacity key value stop Inv Post)
    (start : Inv ht.entries 0 0 (freshEntry key value)) (lap : stop < ht.capacity) :
    ∃ after inserted, zedisHtSet ht key value = some (0, afterSet ht after inserted) ∧
      Post after inserted := by
  obtain ⟨after, inserted, ends, post⟩ := setLoop_rule rule (ht.capacity + 1) ht.entries 0 0
    (freshEntry key value) start (by omega)
  refine ⟨after, inserted, ?_, post⟩
  unfold zedisHtSet
  rw [if_neg fun long => accepted (Or.inl long), if_neg fun full => accepted (Or.inr full)]
  simp only
  change Option.map _ (setLoop ht.capacity (htHash key) key value (ht.capacity + 1) ht.entries
    (keySlot ht.capacity key 0) 0 (freshEntry key value)) = _
  rw [ends]
  rfl

end Zedis.HashTable

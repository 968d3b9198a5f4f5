/-
**A set is read back.**

After an accepted set, a lookup of the key finds the value that was stored, in every reachable table:
also in one whose order a deletion has broken (`zedisHtSet_get`). The insert loop passes exactly the
slots that a lookup passes, up to the slot where it writes the key, and from there on it writes further
along the walk only. An older entry of the same key, if there is one, stays behind the new one.
-/

import Zedis.HashTable.Reach

namespace Zedis.HashTable

open Zedis.Lib

/-- The key is found at distance `d`, with this value. -/
structure StoredAt (ht : ZedisHashTable) (key value : Bytes) (d : Nat) : Prop where
  found : FoundAt ht key d
  value_eq : (walkEntry ht key d).value = value

/-- The table with other entries. -/
def withEntries (ht : ZedisHashTable) (entries : Nat → HtEntry) : ZedisHashTable :=
  { ht with entries := entries }

section Walks

variable {ht : ZedisHashTable} {key value : Bytes} {entries : Nat → HtEntry}

theorem walkEntry_update_of_ne {d t : Nat} (lap : d < ht.capacity) (lap' : t < ht.capacity)
    (differs : d ≠ t) (e : HtEntry) :
    walkEntry (withEntries ht (Function.update entries (keySlot ht.capacity key t) e)) key d =
      walkEntry (withEntries ht entries) key d := by
  have apart : keySlot ht.capacity key d ≠ keySlot ht.capacity key t :=
    fun same => differs (keySlot_inj lap lap' same)
  exact Function.update_of_ne apart e entries

theorem walkEntry_update_self (t : Nat) (e : HtEntry) :
    walkEntry (withEntries ht (Function.update entries (keySlot ht.capacity key t) e)) key t = e :=
  Function.update_self _ _ _

theorem passes_update {d t : Nat} (lap : t < ht.capacity) (before : d < t) (e : HtEntry)
    (passes : Passes (withEntries ht entries) key d) :
    Passes (withEntries ht (Function.update entries (keySlot ht.capacity key t) e)) key d := by
  unfold Passes Matches
  rw [walkEntry_update_of_ne (before.trans lap) lap before.ne]
  exact passes

/-- The key is stored where the walk has come. -/
theorem storedAt_update {t : Nat} (lap : t < ht.capacity)
    (passed : ∀ j < t, Passes (withEntries ht entries) key j) {e : HtEntry}
    (isKey : entryKeyMatch e (htHash key) key = true) :
    StoredAt (withEntries ht (Function.update entries (keySlot ht.capacity key t) e)) key e.value t where
  found := by
    refine ⟨fun j before => passes_update lap before e (passed j before), ?_⟩
    rw [Matches, walkEntry_update_self]
    exact isKey
  value_eq := by rw [walkEntry_update_self]

/-- Writing further along the walk leaves it stored. -/
theorem StoredAt.update {d t : Nat} (stored : StoredAt (withEntries ht entries) key value d)
    (lap : t < ht.capacity) (before : d < t) (e : HtEntry) :
    StoredAt (withEntries ht (Function.update entries (keySlot ht.capacity key t) e)) key value d where
  found := by
    refine ⟨fun j earlier => passes_update lap (earlier.trans before) e (stored.found.1 j earlier), ?_⟩
    rw [Matches, walkEntry_update_of_ne (before.trans lap) lap before.ne]
    exact stored.found.2
  value_eq := by
    rw [walkEntry_update_of_ne (before.trans lap) lap before.ne]
    exact stored.value_eq

end Walks

/-! ### The insert loop -/

section Set

variable {ht : ZedisHashTable} {key value : Bytes} {stop : Nat}

/-- The invariant of the insert loop: it still carries the entry of the call, and a lookup would have
come as far; or it has stored that entry before. -/
structure Storing (ht : ZedisHashTable) (key value : Bytes) (stop : Nat) (entries : Nat → HtEntry)
    (t psl : Nat) (incoming : HtEntry) : Prop where
  before : t ≤ stop
  states : ∀ slot, (entries slot).state = (ht.entries slot).state
  stored : (incoming = freshEntry key value ∧ psl = t % pslMod ∧
      ∀ j < t, Passes (withEntries ht entries) key j) ∨
    ∃ d < t, StoredAt (withEntries ht entries) key value d

/-- The entry of the call, placed, is the key's. -/
theorem placeEntry_matches (psl : Nat) (key value : Bytes) :
    entryKeyMatch (placeEntry psl (freshEntry key value)) (htHash key) key = true :=
  entryKeyMatch_iff.mpr ⟨rfl, rfl, rfl⟩

/-- An occupied slot of the walk comes before the free slot where the walk ends. -/
theorem Storing.not_last {entries : Nat → HtEntry} {t psl : Nat} {incoming : HtEntry}
    (storing : Storing ht key value stop entries t psl incoming)
    (free : (walkEntry ht key stop).state ≠ .occupied)
    (occupied : (entries (keySlot ht.capacity key t)).state = .occupied) : t < stop := by
  refine Nat.lt_of_le_of_ne storing.before fun same => free ?_
  rw [storing.states, same] at occupied
  exact occupied

/-- Once the carried entry is written, the key is stored. -/
theorem Storing.place {entries : Nat → HtEntry} {t psl : Nat} {incoming : HtEntry}
    (storing : Storing ht key value stop entries t psl incoming) (lap : stop < ht.capacity) :
    ∃ d < t + 1, StoredAt (withEntries ht (Function.update entries (keySlot ht.capacity key t)
      (placeEntry psl incoming))) key value d := by
  have inside : t < ht.capacity := storing.before.trans_lt lap
  rcases storing.stored with ⟨rfl, -, passed⟩ | ⟨d, before, stored⟩
  · exact ⟨t, Nat.lt_succ_self t, storedAt_update inside passed (placeEntry_matches psl key value)⟩
  · exact ⟨d, Nat.lt_succ_of_lt before, stored.update inside before _⟩

/-- **One step of the insert loop.** -/
theorem storing_rule (lap : stop < ht.capacity) (free : (walkEntry ht key stop).state ≠ .occupied) :
    SetLoopRule ht.capacity key value stop (Storing ht key value stop)
      fun after _ => ∃ d, StoredAt (withEntries ht after) key value d where
  bounded := fun _ _ _ _ storing => storing.before
  place := by
    intro entries t psl incoming storing _
    obtain ⟨d, -, stored⟩ := storing.place lap
    exact ⟨d, stored⟩
  update := by
    intro entries t psl incoming storing isKey
    have inside : t < ht.capacity := storing.before.trans_lt lap
    rcases storing.stored with ⟨-, -, passed⟩ | ⟨d, before, stored⟩
    · have same : entryKeyMatch { entries (keySlot ht.capacity key t) with value := value }
          (htHash key) key = true := entryKeyMatch_iff.mpr (entryKeyMatch_iff.mp isKey)
      exact ⟨t, storedAt_update inside passed same⟩
    · exact ⟨d, stored.update inside before _⟩
  swap := by
    intro entries t psl incoming storing occupied _ _
    refine ⟨storing.not_last free occupied, fun slot => ?_, Or.inr (storing.place lap)⟩
    rw [state_place occupied, storing.states]
  pass := by
    intro entries t psl incoming storing occupied differs far
    refine ⟨storing.not_last free occupied, storing.states, ?_⟩
    rcases storing.stored with ⟨isFresh, rfl, passed⟩ | ⟨d, before, stored⟩
    · -- the loop passes the slot for the reason for which a lookup does
      refine Or.inl ⟨isFresh, Nat.mod_add_mod t pslMod 1, fun j below => ?_⟩
      rcases Nat.lt_succ_iff_lt_or_eq.mp below with earlier | rfl
      · exact passed j earlier
      · refine ⟨?_, differs, far⟩
        change (entries (keySlot ht.capacity key j)).state ≠ .empty
        rw [occupied]
        decide
    · exact Or.inr ⟨d, Nat.lt_succ_of_lt before, stored⟩

/-- **An accepted set stores its value** where a lookup finds it. -/
theorem zedisHtSet_stored (inv : TableInv ht) {after : ZedisHashTable}
    (accepted : zedisHtSet ht key value = some (0, after)) :
    0 < after.capacity ∧ ∃ d, StoredAt after key value d := by
  have notRefused : ¬ Refused ht key value := fun refused => by
    rw [zedisHtSet_refused refused] at accepted
    cases accepted
  obtain ⟨-, room⟩ := not_refused notRefused
  obtain ⟨stop, lap, free⟩ := exists_free inv key room
  have start : Storing ht key value stop ht.entries 0 0 (freshEntry key value) :=
    ⟨Nat.zero_le _, fun _ => rfl, Or.inl ⟨rfl, rfl, nofun⟩⟩
  obtain ⟨entries, inserted, ends, d, stored⟩ := zedisHtSet_of_rule notRefused
    (storing_rule lap free) start lap
  rw [ends] at accepted
  cases accepted
  exact ⟨inv.positive, d, stored.found, stored.value_eq⟩

/-- **What an accepted set stored, the next get reads.** -/
theorem zedisHtSet_get (inv : TableInv ht) {after : ZedisHashTable}
    (accepted : zedisHtSet ht key value = some (0, after)) (valueCap : Nat) :
    zedisHtGet after key valueCap = some (some (copyOut value valueCap)) := by
  obtain ⟨positive, d, stored⟩ := zedisHtSet_stored inv accepted
  rw [zedisHtGet_of_found positive stored.found, stored.value_eq]

end Set

end Zedis.HashTable

/-
**What holds in every table a run can reach.**

`TableInv`: `count` is the number of occupied slots and stays within the load limit, a tombstone's
`psl` is `0`, keys and values are within their limits, and in a table of at most `2 ^ 32` slots every
occupied entry stands `psl` slots after the home slot of its key. It is kept by every call
(`htStep_inv`), so it holds along every run (`ReachableBy.inv`). From it, every loop returns: an
accepted set meets a free slot (`exists_free`), and a lookup stops within one lap (`exists_stop`):
below `2 ^ 32` slots by the `psl` of its home slot, above by counting, since a walk passes a
tombstone only where its counter has wrapped to `0`.
-/

import Zedis.HashTable.SetLoop
import Zedis.Lib.Run

namespace Zedis.HashTable

open Zedis.Lib Zedis.Arena

/-- The occupied slots. -/
def occupiedSlots (ht : ZedisHashTable) : Finset Nat :=
  (Finset.range ht.capacity).filter fun slot => (ht.entries slot).state = .occupied

/-- An entry stands `psl` slots after the home slot of its key. -/
structure Placed (capacity : Nat) (e : HtEntry) (slot : Nat) : Prop where
  lap : e.psl < capacity
  slot_eq : slotAt capacity e.hash.toNat e.psl = slot
  hash_eq : e.hash = htHash e.key

/-- An entry's key and value are within the limits of `zedis_ht_set`. -/
structure Fits (e : HtEntry) : Prop where
  key_le : e.key.length ≤ zedisHtMaxKey
  value_le : e.value.length ≤ zedisHtMaxValue

/-- Two entries that differ in their values at most. -/
structure SameButValue (old new : HtEntry) : Prop where
  state : new.state = old.state
  psl : new.psl = old.psl
  hash : new.hash = old.hash
  key : new.key = old.key

/-- **The invariant of every reachable table.** -/
structure TableInv (ht : ZedisHashTable) : Prop where
  positive : 0 < ht.capacity
  count_eq : ht.count = (occupiedSlots ht).card
  load : ht.count * 10 ≤ ht.capacity * 7 + 9
  tombstone_psl : ∀ slot, (ht.entries slot).state = .tombstone → (ht.entries slot).psl = 0
  fits : ∀ slot, (ht.entries slot).state = .occupied → Fits (ht.entries slot)
  placed : ht.capacity ≤ pslMod → ∀ slot < ht.capacity, (ht.entries slot).state = .occupied →
    Placed ht.capacity (ht.entries slot) slot

/-- A table that `zedis_ht_init` and then calls meeting `ok` lead to. -/
def ReachableBy (ok : ZedisHashTable → HtOp → Prop) (ht : ZedisHashTable) : Prop :=
  ∃ arena capacity start arena' ops, zedisHtInit arena capacity = some (start, arena') ∧
    Run htStep ok start ops ht

/-- A table that `zedis_ht_init` and then any calls lead to. -/
abbrev Reachable (ht : ZedisHashTable) : Prop := ReachableBy Always ht

theorem mem_occupiedSlots {ht : ZedisHashTable} {slot : Nat} :
    slot ∈ occupiedSlots ht ↔ slot < ht.capacity ∧ (ht.entries slot).state = .occupied := by
  simp [occupiedSlots]

theorem keySlot_lt {capacity : Nat} (positive : 0 < capacity) (key : Bytes) (d : Nat) :
    keySlot capacity key d < capacity :=
  slotAt_lt positive _ _

theorem keySlot_inj {capacity d d' : Nat} {key : Bytes} (lap : d < capacity) (lap' : d' < capacity)
    (same : keySlot capacity key d = keySlot capacity key d') : d = d' :=
  slotAt_inj lap lap' same

theorem sameButValue_revalue (entries : Nat → HtEntry) (target : Nat) (value : Bytes) (slot : Nat) :
    SameButValue (entries slot)
      (Function.update entries target { entries target with value := value } slot) := by
  by_cases same : slot = target
  · subst same
    rw [Function.update_self]
    exact ⟨rfl, rfl, rfl, rfl⟩
  · rw [Function.update_of_ne same]
    exact ⟨rfl, rfl, rfl, rfl⟩

theorem Placed.revalue {capacity slot : Nat} {old new : HtEntry} (placed : Placed capacity old slot)
    (same : SameButValue old new) : Placed capacity new slot where
  lap := by
    rw [same.psl]
    exact placed.lap
  slot_eq := by
    rw [same.psl, same.hash]
    exact placed.slot_eq
  hash_eq := by
    rw [same.hash, same.key]
    exact placed.hash_eq

/-! ### The start -/

/-- `zedis_ht_init` leaves an empty table of a positive capacity. -/
theorem zedisHtInit_eq {arena arena' : ZedisArena} {capacity : Nat} {ht : ZedisHashTable}
    (made : zedisHtInit arena capacity = some (ht, arena')) :
    0 < capacity ∧ ht = ⟨fun _ => zeroEntry, capacity, 0⟩ := by
  unfold zedisHtInit at made
  split at made
  · cases made
  · rename_i nonzero
    obtain ⟨granted, -, same⟩ := Option.map_eq_some_iff.mp made
    refine ⟨Nat.pos_of_ne_zero nonzero, ?_⟩
    exact (congrArg Prod.fst same).symm

theorem init_inv {capacity : Nat} (positive : 0 < capacity) :
    TableInv ⟨fun _ => zeroEntry, capacity, 0⟩ where
  positive := positive
  count_eq := by simp [occupiedSlots, zeroEntry]
  load := by simp
  tombstone_psl := fun _ state => by cases state
  fits := fun _ state => by cases state
  placed := fun _ _ _ state => by cases state

/-! ### A free slot for a set, a stop for a lookup -/

/-- **The walk of a set meets a slot that is not occupied within one lap.** -/
theorem exists_free {ht : ZedisHashTable} (inv : TableInv ht) (key : Bytes)
    (room : ht.count * 10 < ht.capacity * 7) :
    ∃ stop < ht.capacity, (walkEntry ht key stop).state ≠ .occupied := by
  by_contra none
  push Not at none
  have full : Finset.range ht.capacity ⊆ occupiedSlots ht := by
    intro slot inside
    rw [Finset.mem_range] at inside
    obtain ⟨d, lap, rfl⟩ := exists_slotAt (htHash key).toNat inside
    exact mem_occupiedSlots.mpr ⟨inside, none d lap⟩
  have card := Finset.card_le_card full
  rw [Finset.card_range, ← inv.count_eq] at card
  omega

/-- The distances below `size` at which a counter modulo `period` reads `0`. -/
theorem card_multiples_le (size period : Nat) :
    ((Finset.range size).filter fun d => d % period = 0).card ≤ size / period + 1 := by
  have image : Set.InjOn (fun d => d / period)
      ((Finset.range size).filter fun d => d % period = 0) := by
    intro first firstIn second secondIn same
    simp only [Finset.coe_filter, Set.mem_ofPred_eq] at firstIn secondIn
    rw [← Nat.div_add_mod first period, ← Nat.div_add_mod second period, firstIn.2, secondIn.2]
    simp only at same
    rw [same]
  have bound := Finset.card_le_card_of_injOn (t := Finset.range (size / period + 1)) _
    (fun d inside => by
      simp only [Finset.coe_filter, Set.mem_ofPred_eq, Finset.mem_range] at inside
      simp only [Finset.coe_range, Set.mem_Iio]
      exact Nat.lt_succ_of_le (Nat.div_le_div_right inside.1.le)) image
  rwa [Finset.card_range] at bound

/-- A passed slot is occupied, or is a tombstone where the counter reads `0`. -/
theorem Passes.occupied {ht : ZedisHashTable} (inv : TableInv ht) {key : Bytes} {d : Nat}
    (passes : Passes ht key d) (counting : d % pslMod ≠ 0) :
    (walkEntry ht key d).state = .occupied := by
  cases state : (walkEntry ht key d).state with
  | empty => exact absurd state passes.1
  | occupied => rfl
  | tombstone =>
    have zero := inv.tombstone_psl _ state
    have far := passes.2.2
    unfold walkEntry at far
    omega

/-- **A lookup stops within one lap and one slot.** -/
theorem exists_stop {ht : ZedisHashTable} (inv : TableInv ht) (key : Bytes) :
    ∃ stop ≤ ht.capacity, ¬ Passes ht key stop := by
  by_contra none
  push Not at none
  by_cases small : ht.capacity < pslMod
  · -- back at the home slot the counter is `capacity`, more than any `psl`
    have passes := none ht.capacity le_rfl
    have counter : ht.capacity % pslMod = ht.capacity := Nat.mod_eq_of_lt small
    have occupied := passes.occupied inv (by rw [counter]; exact inv.positive.ne')
    have lap := (inv.placed small.le _ (keySlot_lt inv.positive _ _) occupied).lap
    have far := passes.2.2
    rw [counter] at far
    exact absurd far (Nat.not_le.mpr lap)
  · -- all slots but those at multiples of `2 ^ 32` are occupied, more than the load limit allows
    have inside : ((Finset.range ht.capacity).filter fun d => ¬ d % pslMod = 0).card ≤
        (occupiedSlots ht).card := by
      refine Finset.card_le_card_of_injOn (walkSlot ht key) (fun d member => ?_) ?_
      · simp only [Finset.coe_filter, Set.mem_ofPred_eq, Finset.mem_range] at member
        exact mem_occupiedSlots.mpr
          ⟨keySlot_lt inv.positive _ _, (none d member.1.le).occupied inv member.2⟩
      · intro first firstIn second secondIn same
        simp only [Finset.coe_filter, Set.mem_ofPred_eq, Finset.mem_range] at firstIn secondIn
        exact keySlot_inj firstIn.1 secondIn.1 same
    have split := Finset.card_filter_add_card_filter_not (s := Finset.range ht.capacity)
      fun d => d % pslMod = 0
    have multiples := card_multiples_le ht.capacity pslMod
    have load := inv.load
    rw [← inv.count_eq] at inside
    rw [Finset.card_range] at split
    unfold pslMod at *
    omega

/-- **A lookup returns**: it finds the key at its one distance, or returns `-1`. -/
theorem probe_cases {ht : ZedisHashTable} (inv : TableInv ht) (key : Bytes) :
    (∃ d, FoundAt ht key d ∧ probe ht key = some (some (walkSlot ht key d))) ∨
      ((∀ d, ¬ FoundAt ht key d) ∧ probe ht key = some none) := by
  classical
  obtain ⟨bound, inside, stops⟩ := exists_stop inv key
  have some_stop : ∃ stop, ¬ Passes ht key stop := ⟨bound, stops⟩
  have first := Nat.find_spec some_stop
  have before : ∀ j < Nat.find some_stop, Passes ht key j := fun j below =>
    not_not.mp (Nat.find_min some_stop below)
  have answer := probe_of_stop ht key ((Nat.find_min' some_stop stops).trans inside) before first
  by_cases found : Matches ht key (Nat.find some_stop)
  · rw [if_pos found] at answer
    exact Or.inl ⟨_, ⟨before, found⟩, answer⟩
  · rw [if_neg found] at answer
    refine Or.inr ⟨fun d other => ?_, answer⟩
    rcases Nat.lt_trichotomy d (Nat.find some_stop) with less | same | more
    · exact other.not_passes (before d less)
    · rw [same] at other
      exact found other.2
    · exact first (other.1 _ more)

theorem zedisHtGet_of_found {ht : ZedisHashTable} {key : Bytes} {d : Nat} (positive : 0 < ht.capacity)
    (found : FoundAt ht key d) (valueCap : Nat) :
    zedisHtGet ht key valueCap = some (some (copyOut (walkEntry ht key d).value valueCap)) := by
  unfold zedisHtGet
  rw [if_neg positive.ne', probe_of_found found positive]
  rfl

/-- A get returns: a hit at the one distance where the key is found, or a miss. -/
theorem zedisHtGet_cases {ht : ZedisHashTable} (inv : TableInv ht) (key : Bytes) (valueCap : Nat) :
    (∃ d, FoundAt ht key d ∧
        zedisHtGet ht key valueCap = some (some (copyOut (walkEntry ht key d).value valueCap))) ∨
      ((∀ d, ¬ FoundAt ht key d) ∧ zedisHtGet ht key valueCap = some none) := by
  rcases probe_cases inv key with ⟨d, found, -⟩ | ⟨missing, answer⟩
  · exact Or.inl ⟨d, found, zedisHtGet_of_found inv.positive found valueCap⟩
  · refine Or.inr ⟨missing, ?_⟩
    unfold zedisHtGet
    rw [if_neg inv.positive.ne', answer]
    rfl

/-! ### Set -/

section Set

variable {ht : ZedisHashTable} {key : Bytes} {stop : Nat}

/-- The invariant of the insert loop: the states of the slots have not changed, and the carried
entry is `psl` slots from its home. -/
structure Carry (ht : ZedisHashTable) (key : Bytes) (stop : Nat) (entries : Nat → HtEntry)
    (t psl : Nat) (incoming : HtEntry) : Prop where
  before : t ≤ stop
  states : ∀ slot, (entries slot).state = (ht.entries slot).state
  tombstone_psl : ∀ slot, (entries slot).state = .tombstone → (entries slot).psl = 0
  fits : ∀ slot, (entries slot).state = .occupied → Fits (entries slot)
  carriedFits : Fits incoming
  placed : ht.capacity ≤ pslMod → ∀ slot < ht.capacity, (entries slot).state = .occupied →
    Placed ht.capacity (entries slot) slot
  carried : ht.capacity ≤ pslMod → psl ≤ t ∧
    slotAt ht.capacity incoming.hash.toNat psl = keySlot ht.capacity key t ∧
    incoming.hash = htHash incoming.key

/-- What the insert loop leaves: at most one more slot is occupied. -/
structure SetEnds (ht : ZedisHashTable) (after : Nat → HtEntry) (inserted : Bool) : Prop where
  states : if inserted then
      ∃ slot < ht.capacity, (ht.entries slot).state ≠ .occupied ∧ (after slot).state = .occupied ∧
        ∀ other, other ≠ slot → (after other).state = (ht.entries other).state
    else ∀ slot, (after slot).state = (ht.entries slot).state
  tombstone_psl : ∀ slot, (after slot).state = .tombstone → (after slot).psl = 0
  fits : ∀ slot, (after slot).state = .occupied → Fits (after slot)
  placed : ht.capacity ≤ pslMod → ∀ slot < ht.capacity, (after slot).state = .occupied →
    Placed ht.capacity (after slot) slot

/-- An occupied slot of the walk comes before the free slot where the walk ends. -/
theorem Carry.not_last {entries : Nat → HtEntry} {t psl : Nat} {incoming : HtEntry}
    (carry : Carry ht key stop entries t psl incoming)
    (free : (walkEntry ht key stop).state ≠ .occupied)
    (occupied : (entries (keySlot ht.capacity key t)).state = .occupied) : t < stop := by
  refine Nat.lt_of_le_of_ne carry.before fun same => free ?_
  rw [carry.states, same] at occupied
  exact occupied

/-- Writing the carried entry to the slot of the walk keeps the entries well placed. -/
theorem Carry.place_placed {entries : Nat → HtEntry} {t psl : Nat} {incoming : HtEntry}
    (carry : Carry ht key stop entries t psl incoming) (lap : stop < ht.capacity)
    (small : ht.capacity ≤ pslMod) (slot : Nat) (inside : slot < ht.capacity)
    (occupied : (Function.update entries (keySlot ht.capacity key t) (placeEntry psl incoming)
      slot).state = .occupied) :
    Placed ht.capacity
      (Function.update entries (keySlot ht.capacity key t) (placeEntry psl incoming) slot) slot := by
  by_cases same : slot = keySlot ht.capacity key t
  · subst same
    rw [Function.update_self]
    obtain ⟨below, slotEq, hashEq⟩ := carry.carried small
    exact ⟨by have := carry.before; change psl < _; omega, slotEq, hashEq⟩
  · rw [Function.update_of_ne same] at occupied ⊢
    exact carry.placed small slot inside occupied

theorem Carry.place_tombstone {entries : Nat → HtEntry} {t psl : Nat} {incoming : HtEntry}
    (carry : Carry ht key stop entries t psl incoming) (slot : Nat)
    (tombstone : (Function.update entries (keySlot ht.capacity key t) (placeEntry psl incoming)
      slot).state = .tombstone) :
    (Function.update entries (keySlot ht.capacity key t) (placeEntry psl incoming) slot).psl = 0 := by
  by_cases same : slot = keySlot ht.capacity key t
  · subst same
    rw [Function.update_self] at tombstone
    cases tombstone
  · rw [Function.update_of_ne same] at tombstone ⊢
    exact carry.tombstone_psl slot tombstone

theorem Carry.place_fits {entries : Nat → HtEntry} {t psl : Nat} {incoming : HtEntry}
    (carry : Carry ht key stop entries t psl incoming) (slot : Nat)
    (occupied : (Function.update entries (keySlot ht.capacity key t) (placeEntry psl incoming)
      slot).state = .occupied) :
    Fits (Function.update entries (keySlot ht.capacity key t) (placeEntry psl incoming) slot) := by
  by_cases same : slot = keySlot ht.capacity key t
  · subst same
    rw [Function.update_self]
    exact ⟨carry.carriedFits.key_le, carry.carriedFits.value_le⟩
  · rw [Function.update_of_ne same] at occupied ⊢
    exact carry.fits slot occupied

/-- The entry of the key takes a new value. -/
theorem Carry.revalue {entries : Nat → HtEntry} {t psl : Nat} {incoming : HtEntry} {value : Bytes}
    (carry : Carry ht key stop entries t psl incoming) (short : value.length ≤ zedisHtMaxValue)
    (target : Nat) :
    SetEnds ht (Function.update entries target { entries target with value := value }) false := by
  have same := sameButValue_revalue entries target value
  refine ⟨?_, fun slot tombstone => ?_, fun slot occupied => ?_, fun small slot inside occupied => ?_⟩
  · rw [if_neg (by decide)]
    intro slot
    rw [(same slot).state, carry.states]
  · rw [(same slot).state] at tombstone
    rw [(same slot).psl]
    exact carry.tombstone_psl slot tombstone
  · rw [(same slot).state] at occupied
    refine ⟨(same slot).key ▸ (carry.fits slot occupied).key_le, ?_⟩
    by_cases here : slot = target
    · subst here
      rw [Function.update_self]
      exact short
    · rw [Function.update_of_ne here]
      exact (carry.fits slot occupied).value_le
  · rw [(same slot).state] at occupied
    exact (carry.placed small slot inside occupied).revalue (same slot)

/-- **One step of the insert loop, in any table.** -/
theorem carry_rule (lap : stop < ht.capacity) {value : Bytes}
    (short : value.length ≤ zedisHtMaxValue)
    (free : (walkEntry ht key stop).state ≠ .occupied) :
    SetLoopRule ht.capacity key value stop (Carry ht key stop) (SetEnds ht) where
  bounded := fun _ _ _ _ carry => carry.before
  place := by
    intro entries t psl incoming carry vacant
    refine ⟨?_, carry.place_tombstone, carry.place_fits, carry.place_placed lap⟩
    rw [if_pos rfl]
    refine ⟨keySlot ht.capacity key t, keySlot_lt (by omega) _ _, ?_, ?_, fun other differs => ?_⟩
    · rw [← carry.states]
      exact vacant
    · rw [Function.update_self]
      rfl
    · rw [Function.update_of_ne differs]
      exact carry.states other
  update := fun _ _ _ _ carry _ => carry.revalue short _
  swap := by
    intro entries t psl incoming carry occupied _ nearer
    have earlier := carry.not_last free occupied
    refine ⟨by omega, fun slot => ?_, carry.place_tombstone, carry.place_fits,
      carry.fits _ occupied, carry.place_placed lap, fun small => ?_⟩
    · rw [state_place occupied, carry.states]
    · have old := carry.placed small _ (keySlot_lt (by omega) _ _) occupied
      obtain ⟨below, -, -⟩ := carry.carried small
      rw [Nat.mod_eq_of_lt (by omega)]
      refine ⟨by omega, ?_, old.hash_eq⟩
      rw [← slotAt_succ, old.slot_eq, keySlot_succ]
  pass := by
    intro entries t psl incoming carry occupied _ _
    have earlier := carry.not_last free occupied
    refine ⟨by omega, carry.states, carry.tombstone_psl, carry.fits, carry.carriedFits, carry.placed,
      fun small => ?_⟩
    obtain ⟨below, slotEq, hashEq⟩ := carry.carried small
    rw [Nat.mod_eq_of_lt (by omega)]
    refine ⟨by omega, ?_, hashEq⟩
    rw [← slotAt_succ, slotEq, keySlot_succ]

theorem not_refused {value : Bytes} (accepted : ¬ Refused ht key value) :
    Fits (freshEntry key value) ∧ ht.count * 10 < ht.capacity * 7 := by
  unfold Refused at accepted
  push Not at accepted
  exact ⟨⟨accepted.1.1, accepted.1.2⟩, accepted.2⟩

theorem carry_start (inv : TableInv ht) {key value : Bytes} (fits : Fits (freshEntry key value))
    (stop : Nat) : Carry ht key stop ht.entries 0 0 (freshEntry key value) :=
  ⟨Nat.zero_le _, fun _ => rfl, inv.tombstone_psl, inv.fits, fits, inv.placed,
    fun _ => ⟨le_rfl, rfl, rfl⟩⟩

theorem afterSet_inv (inv : TableInv ht) {after : Nat → HtEntry} {inserted : Bool}
    (room : ht.count * 10 < ht.capacity * 7) (ends : SetEnds ht after inserted) :
    TableInv (afterSet ht after inserted) := by
  refine ⟨inv.positive, ?_, ?_, ends.tombstone_psl, ends.fits, ends.placed⟩
  · have states := ends.states
    cases inserted with
    | true =>
      rw [if_pos rfl] at states
      obtain ⟨slot, inside, free, occupied, rest⟩ := states
      have grown : occupiedSlots (afterSet ht after true) = insert slot (occupiedSlots ht) := by
        ext other
        rw [Finset.mem_insert, mem_occupiedSlots, mem_occupiedSlots]
        change other < ht.capacity ∧ (after other).state = .occupied ↔ _
        by_cases same : other = slot
        · subst same
          exact ⟨fun _ => Or.inl rfl, fun _ => ⟨inside, occupied⟩⟩
        · rw [rest other same]
          exact ⟨Or.inr, fun member => member.resolve_left same⟩
      rw [grown, Finset.card_insert_of_notMem fun member => free (mem_occupiedSlots.mp member).2,
        ← inv.count_eq]
      rfl
    | false =>
      rw [if_neg (by decide)] at states
      have kept : occupiedSlots (afterSet ht after false) = occupiedSlots ht := by
        ext other
        rw [mem_occupiedSlots, mem_occupiedSlots]
        change other < ht.capacity ∧ (after other).state = .occupied ↔ _
        rw [states other]
      rw [kept, ← inv.count_eq]
      rfl
  · have load := inv.load
    cases inserted with
    | true =>
      change (ht.count + 1) * 10 ≤ _
      change _ ≤ ht.capacity * 7 + 9
      omega
    | false => exact load

/-- **A set returns, and keeps the invariant.** -/
theorem zedisHtSet_inv (inv : TableInv ht) (key value : Bytes) :
    ∃ rc after, zedisHtSet ht key value = some (rc, after) ∧ TableInv after := by
  by_cases refused : Refused ht key value
  · exact ⟨-1, ht, zedisHtSet_refused refused, inv⟩
  · obtain ⟨fits, room⟩ := not_refused refused
    obtain ⟨stop, lap, free⟩ := exists_free inv key room
    obtain ⟨after, inserted, ends, post⟩ := zedisHtSet_of_rule refused
      (carry_rule lap fits.value_le free) (carry_start inv fits stop) lap
    exact ⟨0, _, ends, afterSet_inv inv room post⟩

end Set

/-! ### Delete -/

/-- The table a deletion of the entry at `slot` leaves. -/
def bury (ht : ZedisHashTable) (slot : Nat) : ZedisHashTable :=
  { ht with
    entries := Function.update ht.entries slot { ht.entries slot with state := .tombstone, psl := 0 }
    count := ht.count - 1 }

theorem zedisHtDel_of_found {ht : ZedisHashTable} {key : Bytes} {slot : Nat}
    (found : probe ht key = some (some slot)) : zedisHtDel ht key = some (0, bury ht slot) := by
  unfold zedisHtDel
  rw [found]
  rfl

theorem zedisHtDel_of_missing {ht : ZedisHashTable} {key : Bytes}
    (missing : probe ht key = some none) : zedisHtDel ht key = some (-1, ht) := by
  unfold zedisHtDel
  rw [missing]
  rfl

theorem bury_inv {ht : ZedisHashTable} (inv : TableInv ht) {slot : Nat} (inside : slot < ht.capacity)
    (occupied : (ht.entries slot).state = .occupied) : TableInv (bury ht slot) := by
  have member : slot ∈ occupiedSlots ht := mem_occupiedSlots.mpr ⟨inside, occupied⟩
  refine ⟨inv.positive, ?_, ?_, fun other tombstone => ?_, fun other taken => ?_,
    fun small other within taken => ?_⟩
  · have shrunk : occupiedSlots (bury ht slot) = (occupiedSlots ht).erase slot := by
      ext other
      rw [Finset.mem_erase, mem_occupiedSlots, mem_occupiedSlots]
      by_cases same : other = slot
      · subst same
        simp [bury]
      · simp [bury, same]
    rw [shrunk, Finset.card_erase_of_mem member, ← inv.count_eq]
    rfl
  · have load := inv.load
    change (ht.count - 1) * 10 ≤ ht.capacity * 7 + 9
    omega
  · by_cases same : other = slot
    · subst same
      simp [bury]
    · simp only [bury, Function.update_of_ne same] at tombstone ⊢
      exact inv.tombstone_psl other tombstone
  · by_cases same : other = slot
    · subst same
      simp [bury] at taken
    · simp only [bury, Function.update_of_ne same] at taken ⊢
      exact inv.fits other taken
  · by_cases same : other = slot
    · subst same
      simp [bury] at taken
    · simp only [bury, Function.update_of_ne same] at taken ⊢
      exact inv.placed small other within taken

/-- **A deletion returns, and keeps the invariant.** -/
theorem zedisHtDel_inv {ht : ZedisHashTable} (inv : TableInv ht) (key : Bytes) :
    ∃ rc after, zedisHtDel ht key = some (rc, after) ∧ TableInv after := by
  rcases probe_cases inv key with ⟨d, found, answer⟩ | ⟨-, answer⟩
  · exact ⟨0, _, zedisHtDel_of_found answer,
      bury_inv inv (keySlot_lt inv.positive _ _) found.2.occupied⟩
  · exact ⟨-1, ht, zedisHtDel_of_missing answer, inv⟩

/-! ### Runs -/

theorem htStep_inv {ht next : ZedisHashTable} {op : HtOp} (inv : TableInv ht)
    (taken : htStep ht op = some next) : TableInv next := by
  cases op with
  | set key value =>
    obtain ⟨rc, after, ends, kept⟩ := zedisHtSet_inv inv key value
    simp only [htStep, ends, Option.map_some, Option.some.injEq] at taken
    exact taken ▸ kept
  | del key =>
    obtain ⟨rc, after, ends, kept⟩ := zedisHtDel_inv inv key
    simp only [htStep, ends, Option.map_some, Option.some.injEq] at taken
    exact taken ▸ kept

/-- **The invariant holds in every reachable table.** -/
theorem ReachableBy.inv {ok : ZedisHashTable → HtOp → Prop} {ht : ZedisHashTable}
    (reach : ReachableBy ok ht) : TableInv ht := by
  obtain ⟨arena, capacity, start, arena', ops, made, run⟩ := reach
  obtain ⟨positive, rfl⟩ := zedisHtInit_eq made
  exact run.invariant TableInv (fun _ _ _ inv _ taken => htStep_inv inv taken) (init_inv positive)

end Zedis.HashTable

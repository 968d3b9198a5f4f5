/-
**The Robin Hood order, and the finite map it represents.**

`RobinHood`: every occupied entry stands `psl` slots after its home, every slot it passed on the way
is occupied by an entry at least as far from its own home (`Covers`), and no key has two entries.
While it holds, a table represents a finite map (`Represents`):

* `zedisHtGet_represents`: a get reads the map;
* `zedisHtSet_represents`: an accepted set updates it at its key (`straight_rule` when the key has an
  entry, `absent_rule` when it has none: then no swap can hide the key, and the loop meets no match);
* `zedisHtDel_represents`: a deletion removes its key, when no other entry passed its slot
  (`SafeDel`: the next slot does not hold an entry away from its home).
-/

import Zedis.HashTable.Reach

namespace Zedis.HashTable

open Zedis.Lib Zedis.Arena

/-- A slot is occupied by an entry at least `d` slots from its home. -/
def Covers (entries : Nat → HtEntry) (slot d : Nat) : Prop :=
  (entries slot).state = .occupied ∧ d ≤ (entries slot).psl

/-- No key has two entries. -/
def UniqueKeys (capacity : Nat) (entries : Nat → HtEntry) : Prop :=
  ∀ slot < capacity, ∀ slot' < capacity, (entries slot).state = .occupied →
    (entries slot').state = .occupied → (entries slot).key = (entries slot').key → slot = slot'

/-- **The Robin Hood order.** -/
structure RobinHood (capacity : Nat) (entries : Nat → HtEntry) : Prop where
  placed : ∀ slot < capacity, (entries slot).state = .occupied → Placed capacity (entries slot) slot
  chain : ∀ slot < capacity, (entries slot).state = .occupied → ∀ d < (entries slot).psl,
    Covers entries (slotAt capacity (entries slot).hash.toNat d) d
  unique : UniqueKeys capacity entries

/-- A slot holds the pair. -/
def Holds (capacity : Nat) (entries : Nat → HtEntry) (key value : Bytes) : Prop :=
  ∃ slot < capacity, (entries slot).state = .occupied ∧ (entries slot).key = key ∧
    (entries slot).value = value

/-- **The finite map of a table.** -/
def Represents (ht : ZedisHashTable) (map : Bytes → Option Bytes) : Prop :=
  ∀ key value, map key = some value ↔ Holds ht.capacity ht.entries key value

/-- A table in Robin Hood order whose counter does not wrap. -/
structure Ordered (ht : ZedisHashTable) : Prop where
  inv : TableInv ht
  small : ht.capacity ≤ pslMod
  order : RobinHood ht.capacity ht.entries

/-! ### Lookup -/

section Lookup

variable {ht : ZedisHashTable}

/-- **An entry of an ordered table is found at its `psl`.** -/
theorem Ordered.foundAt (ordered : Ordered ht) {slot : Nat} (inside : slot < ht.capacity)
    (occupied : (ht.entries slot).state = .occupied) :
    FoundAt ht (ht.entries slot).key (ht.entries slot).psl ∧
      walkSlot ht (ht.entries slot).key (ht.entries slot).psl = slot := by
  have placed := ordered.order.placed slot inside occupied
  have slotEq : walkSlot ht (ht.entries slot).key (ht.entries slot).psl = slot := by
    unfold walkSlot keySlot
    rw [← placed.hash_eq]
    exact placed.slot_eq
  refine ⟨⟨fun d below => ?_, ?_⟩, slotEq⟩
  · have lap : d < ht.capacity := below.trans placed.lap
    have covers := ordered.order.chain slot inside occupied d below
    rw [placed.hash_eq] at covers
    refine ⟨fun empty => ?_, fun found => ?_, ?_⟩
    · have taken : (walkEntry ht (ht.entries slot).key d).state = .occupied := covers.1
      rw [taken] at empty
      cases empty
    · -- a match on the way would be a second entry of the key
      have same := ordered.order.unique _ (keySlot_lt ordered.inv.positive _ d) slot inside
        found.occupied occupied found.key
      exact absurd (keySlot_inj lap placed.lap (same.trans slotEq.symm)) below.ne
    · rw [Nat.mod_eq_of_lt (lap.trans_le ordered.small)]
      exact covers.2
  · refine entryKeyMatch_iff.mpr ?_
    unfold walkEntry
    rw [slotEq]
    exact ⟨occupied, placed.hash_eq, rfl⟩

/-- **A get of an ordered table reads its map.** -/
theorem zedisHtGet_represents (ordered : Ordered ht) {map : Bytes → Option Bytes}
    (represents : Represents ht map) (key : Bytes) (valueCap : Nat) :
    zedisHtGet ht key valueCap = some ((map key).map fun value => copyOut value valueCap) := by
  rcases zedisHtGet_cases ordered.inv key valueCap with ⟨d, found, hit⟩ | ⟨missing, miss⟩
  · have held : Holds ht.capacity ht.entries key (walkEntry ht key d).value :=
      ⟨_, keySlot_lt ordered.inv.positive _ _, found.2.occupied, found.2.key, rfl⟩
    rw [hit, (represents _ _).mpr held]
    rfl
  · cases stored : map key with
    | none => exact miss
    | some value =>
      obtain ⟨slot, inside, occupied, rfl, -⟩ := (represents _ _).mp stored
      exact absurd (ordered.foundAt inside occupied).1 (missing _)

/-- The map of an ordered table exists. -/
theorem Ordered.exists_represents (ordered : Ordered ht) : ∃ map, Represents ht map := by
  classical
  refine ⟨fun key => if held : ∃ value, Holds ht.capacity ht.entries key value then
    some held.choose else none, fun key value => ?_⟩
  by_cases held : ∃ value, Holds ht.capacity ht.entries key value
  · simp only [dif_pos held, Option.some.injEq]
    constructor
    · rintro rfl
      exact held.choose_spec
    · rintro ⟨slot, inside, occupied, sameKey, rfl⟩
      obtain ⟨slot', inside', occupied', sameKey', sameValue⟩ := held.choose_spec
      have same := ordered.order.unique slot' inside' slot inside occupied' occupied
        (sameKey'.trans sameKey.symm)
      rw [← sameValue, same]
  · simp only [dif_neg held]
    exact ⟨nofun, fun found => absurd ⟨value, found⟩ held⟩

end Lookup

/-! ### Writing the carried entry -/

section Write

variable {capacity : Nat} {entries : Nat → HtEntry} {at_ : Nat} {written : HtEntry}

/-- A write that does not bring its slot nearer to home covers what was covered. -/
theorem Covers.write (occupied : written.state = .occupied)
    (further : (entries at_).state = .occupied → (entries at_).psl ≤ written.psl) {slot d : Nat}
    (covers : Covers entries slot d) : Covers (Function.update entries at_ written) slot d := by
  unfold Covers
  by_cases same : slot = at_
  · subst same
    rw [Function.update_self]
    exact ⟨occupied, covers.2.trans (further covers.1)⟩
  · rw [Function.update_of_ne same]
    exact covers

theorem RobinHood.write (order : RobinHood capacity entries) (occupied : written.state = .occupied)
    (further : (entries at_).state = .occupied → (entries at_).psl ≤ written.psl)
    (placed : Placed capacity written at_)
    (path : ∀ d < written.psl, Covers entries (slotAt capacity written.hash.toNat d) d)
    (fresh : ∀ slot < capacity, (entries slot).state = .occupied → (entries slot).key ≠ written.key) :
    RobinHood capacity (Function.update entries at_ written) where
  placed := by
    intro slot inside taken
    by_cases same : slot = at_
    · subst same
      rw [Function.update_self]
      exact placed
    · rw [Function.update_of_ne same] at taken ⊢
      exact order.placed slot inside taken
  chain := by
    intro slot inside taken d below
    refine Covers.write occupied further ?_
    by_cases same : slot = at_
    · subst same
      rw [Function.update_self] at below ⊢
      exact path d below
    · rw [Function.update_of_ne same] at taken below ⊢
      exact order.chain slot inside taken d below
  unique := by
    intro slot inside slot' inside' taken taken' sameKey
    by_cases same : slot = at_ <;> by_cases same' : slot' = at_
    · rw [same, same']
    · subst same
      rw [Function.update_self, Function.update_of_ne same'] at sameKey
      rw [Function.update_of_ne same'] at taken'
      exact absurd sameKey.symm (fresh slot' inside' taken')
    · subst same'
      rw [Function.update_self, Function.update_of_ne same] at sameKey
      rw [Function.update_of_ne same] at taken
      exact absurd sameKey (fresh slot inside taken)
    · rw [Function.update_of_ne same] at taken sameKey
      rw [Function.update_of_ne same'] at taken' sameKey
      exact order.unique slot inside slot' inside' taken taken' sameKey

end Write

/-! ### A walk without a swap -/

section Straight

variable {ht : ZedisHashTable} {key value : Bytes} {stop : Nat}

/-- The loop has changed nothing before step `stop`. -/
structure Straight (ht : ZedisHashTable) (key value : Bytes) (stop : Nat)
    (entries : Nat → HtEntry) (t psl : Nat) (incoming : HtEntry) : Prop where
  before : t ≤ stop
  same : entries = ht.entries
  counter : psl = t
  carried : incoming = freshEntry key value

/-- What the loop does at step `stop`. -/
def StraightEnds (ht : ZedisHashTable) (key value : Bytes) (stop : Nat) (after : Nat → HtEntry)
    (inserted : Bool) : Prop :=
  if (walkEntry ht key stop).state = .occupied then
    inserted = false ∧
      after = Function.update ht.entries (walkSlot ht key stop)
        { walkEntry ht key stop with value := value }
  else inserted = true ∧
    after = Function.update ht.entries (walkSlot ht key stop)
      (placeEntry stop (freshEntry key value))

/-- **A walk over covering slots of other keys changes nothing** before the first slot that is free
or the key's own. -/
theorem straight_rule (small : stop < pslMod)
    (clear : ∀ t < stop, Covers ht.entries (walkSlot ht key t) t ∧ ¬ Matches ht key t)
    (ends : (walkEntry ht key stop).state = .occupied → Matches ht key stop) :
    SetLoopRule ht.capacity key value stop (Straight ht key value stop)
      (StraightEnds ht key value stop) := by
  refine ⟨fun _ _ _ _ straight => straight.before, ?_, ?_, ?_, ?_⟩
  · rintro _ _ t _ ⟨before, rfl, rfl, rfl⟩ free
    rcases Nat.lt_or_eq_of_le before with less | rfl
    · exact absurd (clear t less).1.1 free
    · have vacant : (walkEntry ht key t).state ≠ .occupied := free
      unfold StraightEnds
      rw [if_neg vacant]
      exact ⟨rfl, rfl⟩
  · rintro _ _ t _ ⟨before, rfl, rfl, rfl⟩ matched
    rcases Nat.lt_or_eq_of_le before with less | rfl
    · exact absurd matched (clear t less).2
    · unfold StraightEnds
      rw [if_pos (Matches.occupied matched)]
      exact ⟨rfl, rfl⟩
  · rintro _ _ t _ ⟨before, rfl, rfl, rfl⟩ occupied differs nearer
    rcases Nat.lt_or_eq_of_le before with less | rfl
    · exact absurd (clear t less).1.2 (Nat.not_le.mpr nearer)
    · exact absurd (ends occupied) differs
  · rintro _ _ t _ ⟨before, rfl, rfl, rfl⟩ occupied differs _
    rcases Nat.lt_or_eq_of_le before with less | rfl
    · exact ⟨less, rfl, Nat.mod_eq_of_lt (by omega), rfl⟩
    · exact absurd (ends occupied) differs

/-- **A set that meets no swap.** -/
theorem zedisHtSet_straight (accepted : ¬ Refused ht key value) (lap : stop < ht.capacity)
    (small : ht.capacity ≤ pslMod)
    (clear : ∀ t < stop, Covers ht.entries (walkSlot ht key t) t ∧ ¬ Matches ht key t)
    (ends : (walkEntry ht key stop).state = .occupied → Matches ht key stop) :
    ∃ after inserted, zedisHtSet ht key value = some (0, afterSet ht after inserted) ∧
      StraightEnds ht key value stop after inserted :=
  zedisHtSet_of_rule accepted (straight_rule (by omega) clear ends)
    ⟨Nat.zero_le _, rfl, rfl, rfl⟩ lap

/-- The slots before an entry of an ordered table are covered, and by other keys. -/
theorem Ordered.clear (ordered : Ordered ht) {slot : Nat} (inside : slot < ht.capacity)
    (occupied : (ht.entries slot).state = .occupied) (t : Nat) (below : t < (ht.entries slot).psl) :
    Covers ht.entries (walkSlot ht (ht.entries slot).key t) t ∧
      ¬ Matches ht (ht.entries slot).key t := by
  have covers := ordered.order.chain slot inside occupied t below
  rw [(ordered.order.placed slot inside occupied).hash_eq] at covers
  exact ⟨covers, ((ordered.foundAt inside occupied).1.1 t below).2.1⟩

end Straight

/-! ### Set of a new key -/

section Absent

variable {ht : ZedisHashTable} {key value : Bytes} {stop : Nat}

/-- The pairs of the table and the carried entry. -/
def Together (capacity : Nat) (entries : Nat → HtEntry) (incoming : HtEntry) (key value : Bytes) :
    Prop :=
  Holds capacity entries key value ∨ (incoming.key = key ∧ incoming.value = value)

/-- The invariant of the loop for a new key: the order holds, the carried entry has passed only
covering slots and has no entry in the table, the pairs are the old ones and the new one, and the
key itself is carried or stands in a slot of the walk already visited. -/
structure Carrying (ht : ZedisHashTable) (key value : Bytes) (stop : Nat) (entries : Nat → HtEntry)
    (t psl : Nat) (incoming : HtEntry) : Prop where
  carry : Carry ht key stop entries t psl incoming
  order : RobinHood ht.capacity entries
  path : ∀ d < psl, Covers entries (slotAt ht.capacity incoming.hash.toNat d) d
  fresh : ∀ slot < ht.capacity, (entries slot).state = .occupied → (entries slot).key ≠ incoming.key
  pairs : ∀ key' value', Together ht.capacity entries incoming key' value' ↔
    Together ht.capacity ht.entries (freshEntry key value) key' value'
  own : incoming.key = key ∨ ∃ s < t, (entries (keySlot ht.capacity key s)).state = .occupied ∧
    (entries (keySlot ht.capacity key s)).key = key

/-- The pairs after the carried entry is written and the one of its slot carried on. -/
theorem together_swap {capacity : Nat} {entries : Nat → HtEntry} {psl slot : Nat}
    {incoming : HtEntry} (inside : slot < capacity)
    (occupied : (entries slot).state = .occupied) (key value : Bytes) :
    Together capacity (Function.update entries slot (placeEntry psl incoming)) (entries slot)
        key value ↔
      Together capacity entries incoming key value := by
  constructor
  · rintro (⟨other, within, taken, sameKey, sameValue⟩ | ⟨sameKey, sameValue⟩)
    · by_cases same : other = slot
      · subst same
        rw [Function.update_self] at sameKey sameValue
        exact Or.inr ⟨sameKey, sameValue⟩
      · rw [Function.update_of_ne same] at taken sameKey sameValue
        exact Or.inl ⟨other, within, taken, sameKey, sameValue⟩
    · exact Or.inl ⟨slot, inside, occupied, sameKey, sameValue⟩
  · rintro (⟨other, within, taken, sameKey, sameValue⟩ | ⟨sameKey, sameValue⟩)
    · by_cases same : other = slot
      · subst same
        exact Or.inr ⟨sameKey, sameValue⟩
      · refine Or.inl ⟨other, within, ?_⟩
        rw [Function.update_of_ne same]
        exact ⟨taken, sameKey, sameValue⟩
    · refine Or.inl ⟨slot, inside, ?_⟩
      rw [Function.update_self]
      exact ⟨rfl, sameKey, sameValue⟩

/-- The pairs after the carried entry is written to a free slot. -/
theorem holds_place {capacity : Nat} {entries : Nat → HtEntry} {psl slot : Nat}
    {incoming : HtEntry} (inside : slot < capacity)
    (free : (entries slot).state ≠ .occupied) (key value : Bytes) :
    Holds capacity (Function.update entries slot (placeEntry psl incoming)) key value ↔
      Together capacity entries incoming key value := by
  constructor
  · rintro ⟨other, within, taken, sameKey, sameValue⟩
    by_cases same : other = slot
    · subst same
      rw [Function.update_self] at sameKey sameValue
      exact Or.inr ⟨sameKey, sameValue⟩
    · rw [Function.update_of_ne same] at taken sameKey sameValue
      exact Or.inl ⟨other, within, taken, sameKey, sameValue⟩
  · rintro (⟨other, within, taken, sameKey, sameValue⟩ | ⟨sameKey, sameValue⟩)
    · have differs : other ≠ slot := fun same => free (same ▸ taken)
      refine ⟨other, within, ?_⟩
      rw [Function.update_of_ne differs]
      exact ⟨taken, sameKey, sameValue⟩
    · refine ⟨slot, inside, ?_⟩
      rw [Function.update_self]
      exact ⟨rfl, sameKey, sameValue⟩

/-- No slot the walk visits holds the new key. -/
theorem Carrying.no_match {entries : Nat → HtEntry} {t psl : Nat} {incoming : HtEntry}
    (carrying : Carrying ht key value stop entries t psl incoming) (lap : stop < ht.capacity) :
    ¬ entryKeyMatch (entries (keySlot ht.capacity key t)) (htHash key) key = true := by
  intro matched
  have matched := entryKeyMatch_iff.mp matched
  have positive : 0 < ht.capacity := by omega
  have before := carrying.carry.before
  rcases carrying.own with own | ⟨s, earlier, taken, sameKey⟩
  · exact carrying.fresh _ (keySlot_lt positive _ _) matched.1 (matched.2.2.trans own.symm)
  · have same := carrying.order.unique _ (keySlot_lt positive key s) _ (keySlot_lt positive key t)
      taken matched.1 (sameKey.trans matched.2.2.symm)
    have := keySlot_inj (by omega) (by omega) same
    omega

/-- The carried entry, written to the slot of the walk, keeps the order. -/
theorem Carrying.write {entries : Nat → HtEntry} {t psl : Nat} {incoming : HtEntry}
    (carrying : Carrying ht key value stop entries t psl incoming) (small : ht.capacity ≤ pslMod)
    (lap : stop < ht.capacity)
    (further : (entries (keySlot ht.capacity key t)).state = .occupied →
      (entries (keySlot ht.capacity key t)).psl ≤ psl) :
    RobinHood ht.capacity
      (Function.update entries (keySlot ht.capacity key t) (placeEntry psl incoming)) := by
  obtain ⟨below, slotEq, hashEq⟩ := carrying.carry.carried small
  have before := carrying.carry.before
  exact carrying.order.write rfl further ⟨by change psl < _; omega, slotEq, hashEq⟩ carrying.path
    carrying.fresh

theorem absent_rule (small : ht.capacity ≤ pslMod) (lap : stop < ht.capacity)
    (short : value.length ≤ zedisHtMaxValue)
    (free : (walkEntry ht key stop).state ≠ .occupied) :
    SetLoopRule ht.capacity key value stop (Carrying ht key value stop)
      (fun after _ => RobinHood ht.capacity after ∧ ∀ key' value',
        Holds ht.capacity after key' value' ↔
          Together ht.capacity ht.entries (freshEntry key value) key' value') where
  bounded := fun _ _ _ _ carrying => carrying.carry.before
  place := by
    intro entries t psl incoming carrying vacant
    refine ⟨carrying.write small lap fun occupied => absurd occupied vacant, fun key' value' => ?_⟩
    rw [holds_place (keySlot_lt (by omega) _ _) vacant, carrying.pairs]
  update := by
    intro entries t psl incoming carrying matched
    exact absurd matched (carrying.no_match lap)
  swap := by
    intro entries t psl incoming carrying occupied differs nearer
    have inside : keySlot ht.capacity key t < ht.capacity := keySlot_lt (by omega) _ _
    have next := (carry_rule lap short free).swap _ _ _ _ carrying.carry occupied differs nearer
    have placed := carrying.carry.placed small _ inside occupied
    have order := carrying.write small lap fun _ => nearer.le
    have earlier := carrying.carry.not_last free occupied
    have counter : ((entries (keySlot ht.capacity key t)).psl + 1) % pslMod =
        (entries (keySlot ht.capacity key t)).psl + 1 := by
      have := placed.lap
      have := carrying.carry.carried small
      exact Nat.mod_eq_of_lt (by omega)
    refine ⟨next, order, fun d below => ?_, fun slot within taken => ?_, fun key' value' => ?_, ?_⟩
    · -- the slots the displaced entry passed, and the one it leaves
      rw [counter] at below
      rcases Nat.lt_or_eq_of_le (Nat.le_of_lt_succ below) with less | rfl
      · exact Covers.write rfl (fun _ => nearer.le)
          (carrying.order.chain _ inside occupied d less)
      · rw [placed.slot_eq]
        unfold Covers
        rw [Function.update_self]
        exact ⟨rfl, nearer.le⟩
    · by_cases same : slot = keySlot ht.capacity key t
      · subst same
        rw [Function.update_self]
        exact fun sameKey => carrying.fresh _ inside occupied sameKey.symm
      · rw [Function.update_of_ne same] at taken ⊢
        exact fun sameKey => same (carrying.order.unique _ within _ inside taken occupied sameKey)
    · rw [together_swap inside occupied, carrying.pairs]
    · right
      rcases carrying.own with own | ⟨s, before, taken, sameKey⟩
      · refine ⟨t, Nat.lt_succ_self t, ?_⟩
        rw [Function.update_self]
        exact ⟨rfl, own⟩
      · refine ⟨s, by omega, ?_⟩
        have differs : keySlot ht.capacity key s ≠ keySlot ht.capacity key t := fun same => by
          have := keySlot_inj (by omega) (by omega) same
          omega
        rw [Function.update_of_ne differs]
        exact ⟨taken, sameKey⟩
  pass := by
    intro entries t psl incoming carrying occupied differs further
    have next := (carry_rule lap short free).pass _ _ _ _ carrying.carry occupied differs further
    have earlier := carrying.carry.not_last free occupied
    obtain ⟨below, slotEq, hashEq⟩ := carrying.carry.carried small
    have counter : (psl + 1) % pslMod = psl + 1 := Nat.mod_eq_of_lt (by omega)
    refine ⟨next, carrying.order, fun d less => ?_, carrying.fresh, carrying.pairs, ?_⟩
    · rw [counter] at less
      rcases Nat.lt_or_eq_of_le (Nat.le_of_lt_succ less) with less | rfl
      · exact carrying.path d less
      · rw [slotEq]
        exact ⟨occupied, further⟩
    · exact carrying.own.imp_right fun ⟨s, before, rest⟩ => ⟨s, by omega, rest⟩

end Absent

/-! ### The calls on the map -/

section Calls

variable {ht : ZedisHashTable} {map : Bytes → Option Bytes} {key : Bytes}

/-- The order does not read the values. -/
theorem RobinHood.congr {capacity : Nat} {entries entries' : Nat → HtEntry}
    (order : RobinHood capacity entries)
    (same : ∀ slot, SameButValue (entries slot) (entries' slot)) : RobinHood capacity entries' where
  placed := by
    intro slot inside occupied
    rw [(same slot).state] at occupied
    exact (order.placed slot inside occupied).revalue (same slot)
  chain := by
    intro slot inside occupied d below
    rw [(same slot).state] at occupied
    rw [(same slot).psl] at below
    rw [(same slot).hash]
    unfold Covers
    rw [(same _).state, (same _).psl]
    exact order.chain slot inside occupied d below
  unique := by
    intro slot inside slot' inside' occupied occupied' sameKey
    rw [(same _).state] at occupied occupied'
    rw [(same _).key, (same _).key] at sameKey
    exact order.unique slot inside slot' inside' occupied occupied' sameKey

theorem Represents.none_iff (represents : Represents ht map) :
    map key = none ↔ ∀ slot < ht.capacity, (ht.entries slot).state = .occupied →
      (ht.entries slot).key ≠ key := by
  constructor
  · intro missing slot inside occupied sameKey
    have stored := (represents key (ht.entries slot).value).mpr
      ⟨slot, inside, occupied, sameKey, rfl⟩
    rw [missing] at stored
    cases stored
  · intro absent
    cases stored : map key with
    | none => rfl
    | some value =>
      obtain ⟨slot, inside, occupied, sameKey, -⟩ := (represents key value).mp stored
      exact absurd sameKey (absent slot inside occupied)

/-- Rewriting the value of the key's entry updates the map. -/
theorem represents_revalue (ordered : Ordered ht) (represents : Represents ht map) {slot : Nat}
    (inside : slot < ht.capacity) (occupied : (ht.entries slot).state = .occupied) (value : Bytes)
    (key' value' : Bytes) :
    Function.update map (ht.entries slot).key (some value) key' = some value' ↔
      Holds ht.capacity (Function.update ht.entries slot { ht.entries slot with value := value })
        key' value' := by
  by_cases sameKey : key' = (ht.entries slot).key
  · subst sameKey
    rw [Function.update_self, Option.some.injEq]
    constructor
    · rintro rfl
      refine ⟨slot, inside, ?_⟩
      rw [Function.update_self]
      exact ⟨occupied, rfl, rfl⟩
    · rintro ⟨other, within, taken, otherKey, otherValue⟩
      by_cases same : other = slot
      · subst same
        rwa [Function.update_self] at otherValue
      · rw [Function.update_of_ne same] at taken otherKey
        exact absurd (ordered.order.unique _ within _ inside taken occupied otherKey) same
  · rw [Function.update_of_ne sameKey, represents]
    constructor
    · rintro ⟨other, within, taken, otherKey, otherValue⟩
      have differs : other ≠ slot := fun same => sameKey (by rw [← otherKey, same])
      refine ⟨other, within, ?_⟩
      rw [Function.update_of_ne differs]
      exact ⟨taken, otherKey, otherValue⟩
    · rintro ⟨other, within, taken, otherKey, otherValue⟩
      by_cases same : other = slot
      · subst same
        rw [Function.update_self] at otherKey
        exact absurd otherKey.symm sameKey
      · rw [Function.update_of_ne same] at taken otherKey otherValue
        exact ⟨other, within, taken, otherKey, otherValue⟩

/-- **An accepted set updates the map at its key.** -/
theorem zedisHtSet_represents (ordered : Ordered ht) (represents : Represents ht map)
    {value : Bytes} (accepted : ¬ Refused ht key value) :
    ∃ after, zedisHtSet ht key value = some (0, after) ∧ after.capacity = ht.capacity ∧
      Ordered after ∧ Represents after (Function.update map key (some value)) := by
  obtain ⟨fits, room⟩ := not_refused accepted
  have kept : ∀ after, zedisHtSet ht key value = some (0, after) → TableInv after := by
    intro after ends
    obtain ⟨rc, after', ends', inv⟩ := zedisHtSet_inv ordered.inv key value
    rw [ends] at ends'
    cases ends'
    exact inv
  cases stored : map key with
  | some old =>
    obtain ⟨slot, inside, occupied, rfl, -⟩ := (represents key old).mp stored
    obtain ⟨found, slotEq⟩ := ordered.foundAt inside occupied
    obtain ⟨after, inserted, ends, straight⟩ := zedisHtSet_straight accepted
      (ordered.order.placed slot inside occupied).lap ordered.small
      (ordered.clear inside occupied) fun _ => found.2
    unfold StraightEnds at straight
    rw [if_pos found.2.occupied, walkEntry, slotEq] at straight
    obtain ⟨rfl, rfl⟩ := straight
    exact ⟨_, ends, rfl, ⟨kept _ ends, ordered.small,
        ordered.order.congr (sameButValue_revalue ht.entries slot value)⟩,
      represents_revalue ordered represents inside occupied value⟩
  | none =>
    obtain ⟨stop, lap, free⟩ := exists_free ordered.inv key room
    have start : Carrying ht key value stop ht.entries 0 0 (freshEntry key value) :=
      ⟨carry_start ordered.inv fits stop, ordered.order, fun _ below => absurd below (by omega),
        represents.none_iff.mp stored, fun _ _ => Iff.rfl, Or.inl rfl⟩
    obtain ⟨after, inserted, ends, order, pairs⟩ := zedisHtSet_of_rule accepted
      (absent_rule ordered.small lap fits.value_le free) start lap
    refine ⟨_, ends, rfl, ⟨kept _ ends, ordered.small, order⟩, fun key' value' => ?_⟩
    change _ ↔ Holds ht.capacity after key' value'
    rw [pairs]
    by_cases same : key' = key
    · subst same
      rw [Function.update_self, Option.some.injEq]
      refine ⟨fun sameValue => Or.inr ⟨rfl, sameValue⟩, fun together => ?_⟩
      rcases together with held | ⟨-, sameValue⟩
      · rw [← represents, stored] at held
        cases held
      · exact sameValue
    · rw [Function.update_of_ne same, represents]
      exact ⟨Or.inl, fun together => together.resolve_right fun own => same own.1.symm⟩

/-- **No other entry passed the slot of the key**: the next slot holds no entry away from home. -/
def SafeDel (ht : ZedisHashTable) (key : Bytes) : Prop :=
  ∀ d, FoundAt ht key d →
    ¬ Covers ht.entries ((walkSlot ht key d + 1) % ht.capacity) 1

/-- An entry that passed a slot leaves the next slot covered. -/
theorem RobinHood.covers_next {capacity : Nat} {entries : Nat → HtEntry}
    (order : RobinHood capacity entries) {slot d : Nat} (inside : slot < capacity)
    (occupied : (entries slot).state = .occupied) (below : d < (entries slot).psl) :
    Covers entries ((slotAt capacity (entries slot).hash.toNat d + 1) % capacity) 1 := by
  rw [slotAt_succ]
  rcases Nat.lt_or_eq_of_le (Nat.succ_le_of_lt below) with less | last
  · have covers := order.chain slot inside occupied (d + 1) less
    exact ⟨covers.1, by have := covers.2; omega⟩
  · rw [show d + 1 = (entries slot).psl from last, (order.placed slot inside occupied).slot_eq]
    exact ⟨occupied, by omega⟩

theorem bury_of_ne {slot other : Nat} (differs : other ≠ slot) :
    (bury ht slot).entries other = ht.entries other :=
  Function.update_of_ne differs _ _

/-- What is occupied after a deletion is another slot. -/
theorem ne_of_bury_occupied {slot other : Nat}
    (taken : ((bury ht slot).entries other).state = .occupied) : other ≠ slot := by
  rintro rfl
  simp [bury] at taken

/-- **A safe deletion keeps the order.** -/
theorem bury_order (ordered : Ordered ht) {d : Nat} (found : FoundAt ht key d)
    (safe : SafeDel ht key) :
    RobinHood ht.capacity (bury ht (walkSlot ht key d)).entries where
  placed := by
    intro slot within taken
    have differs := ne_of_bury_occupied taken
    rw [bury_of_ne differs] at taken ⊢
    exact ordered.order.placed slot within taken
  chain := by
    intro slot within taken j below
    have differs := ne_of_bury_occupied taken
    rw [bury_of_ne differs] at taken below ⊢
    have apart : slotAt ht.capacity (ht.entries slot).hash.toNat j ≠ walkSlot ht key d := by
      intro same
      have covers := ordered.order.covers_next within taken below
      rw [same] at covers
      exact safe d found covers
    unfold Covers
    rw [bury_of_ne apart]
    exact ordered.order.chain slot within taken j below
  unique := by
    intro slot within slot' within' taken taken' sameKey
    have differs := ne_of_bury_occupied taken
    have differs' := ne_of_bury_occupied taken'
    rw [bury_of_ne differs] at taken sameKey
    rw [bury_of_ne differs'] at taken' sameKey
    exact ordered.order.unique slot within slot' within' taken taken' sameKey

/-- A deletion removes the pair of its key, and no other. -/
theorem holds_bury_iff (ordered : Ordered ht) {d : Nat} (found : FoundAt ht key d)
    (key' value' : Bytes) :
    Holds ht.capacity (bury ht (walkSlot ht key d)).entries key' value' ↔
      key' ≠ key ∧ Holds ht.capacity ht.entries key' value' := by
  constructor
  · rintro ⟨slot, within, taken, rfl, rfl⟩
    have differs := ne_of_bury_occupied taken
    rw [bury_of_ne differs] at taken ⊢
    refine ⟨fun sameKey => differs ?_, slot, within, taken, rfl, rfl⟩
    exact ordered.order.unique _ within _ (keySlot_lt ordered.inv.positive _ _) taken
      found.2.occupied (sameKey.trans found.2.key.symm)
  · rintro ⟨other, slot, within, taken, rfl, rfl⟩
    have differs : slot ≠ walkSlot ht key d := by
      rintro rfl
      exact other found.2.key
    refine ⟨slot, within, ?_⟩
    rw [bury_of_ne differs]
    exact ⟨taken, rfl, rfl⟩

/-- **A safe deletion removes its key from the map.** -/
theorem zedisHtDel_represents (ordered : Ordered ht) (represents : Represents ht map)
    (safe : SafeDel ht key) :
    ∃ after, zedisHtDel ht key = some (if (map key).isSome then 0 else -1, after) ∧
      after.capacity = ht.capacity ∧ Ordered after ∧
      Represents after (Function.update map key none) := by
  rcases probe_cases ordered.inv key with ⟨d, found, answer⟩ | ⟨missing, answer⟩
  · have inside := keySlot_lt ordered.inv.positive key d
    have stored := (represents key (walkEntry ht key d).value).mpr
      ⟨_, inside, found.2.occupied, found.2.key, rfl⟩
    refine ⟨bury ht (walkSlot ht key d), ?_, rfl,
      ⟨bury_inv ordered.inv inside found.2.occupied, ordered.small, bury_order ordered found safe⟩,
      fun key' value' => ?_⟩
    · rw [zedisHtDel_of_found answer, stored]
      rfl
    · rw [show (bury ht (walkSlot ht key d)).capacity = ht.capacity from rfl,
        holds_bury_iff ordered found]
      by_cases same : key' = key
      · subst same
        rw [Function.update_self]
        exact ⟨nofun, fun held => absurd rfl held.1⟩
      · rw [Function.update_of_ne same, represents]
        exact ⟨fun held => ⟨same, held⟩, fun held => held.2⟩
  · have absent : map key = none := represents.none_iff.mpr fun slot inside occupied sameKey => by
      have found := (ordered.foundAt inside occupied).1
      rw [sameKey] at found
      exact missing _ found
    refine ⟨ht, ?_, rfl, ordered, ?_⟩
    · rw [zedisHtDel_of_missing answer, absent]
      rfl
    · rw [← absent, Function.update_eq_self]
      exact represents

end Calls

end Zedis.HashTable

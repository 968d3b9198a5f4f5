/-
**What a deletion does to the other keys.**

`zedis_ht_del` writes a tombstone with `psl = 0`, and a lookup that meets it with a counter above `0`
gives up (`passes_bury_iff`). So deleting `key` changes the lookup of `other` exactly when `other`
was found and the slot of `key` lies on its walk after the home slot (`Severs`):
`zedisHtGet_del_iff`. `del_loses_key` is such a deletion in a table of four slots.
-/

import Zedis.HashTable.Reach

namespace Zedis.HashTable

open Zedis.Lib Zedis.Arena

/-- **Deleting `key` cuts the walk to `other`**: the slot of `key` is passed on the way to `other`
with a counter that is not `0`. -/
def Severs (ht : ZedisHashTable) (key other : Bytes) : Prop :=
  ∃ dist dist' d, FoundAt ht key dist ∧ FoundAt ht other dist' ∧ d < dist' ∧ d % pslMod ≠ 0 ∧
    walkSlot ht other d = walkSlot ht key dist

section Bury

variable {ht : ZedisHashTable} {key other : Bytes} {dist : Nat}

theorem walkEntry_bury_of_ne {slot d : Nat} (differs : walkSlot ht other d ≠ slot) :
    walkEntry (bury ht slot) other d = walkEntry ht other d :=
  Function.update_of_ne differs _ _

theorem walkEntry_bury_self {slot d : Nat} (same : walkSlot ht other d = slot) :
    walkEntry (bury ht slot) other d =
      { walkEntry ht other d with state := .tombstone, psl := 0 } := by
  subst same
  exact Function.update_self _ _ _

/-- The entry of a found key is not another key's. -/
theorem not_matches_of_slot (found : FoundAt ht key dist) (differ : other ≠ key) {d : Nat}
    (same : walkSlot ht other d = walkSlot ht key dist) : ¬ Matches ht other d := by
  intro foundOther
  have otherKey := foundOther.key
  have ownKey := found.2.key
  unfold walkEntry at otherKey ownKey
  rw [same, ownKey] at otherKey
  exact differ otherKey.symm

theorem matches_bury_iff (found : FoundAt ht key dist) (differ : other ≠ key) (d : Nat) :
    Matches (bury ht (walkSlot ht key dist)) other d ↔ Matches ht other d := by
  by_cases same : walkSlot ht other d = walkSlot ht key dist
  · refine ⟨fun buried => ?_, fun foundOther => absurd foundOther
      (not_matches_of_slot found differ same)⟩
    have occupied := buried.occupied
    rw [walkEntry_bury_self same] at occupied
    cases occupied
  · unfold Matches
    rw [walkEntry_bury_of_ne same]

/-- **A lookup passes a fresh tombstone only with its counter at `0`.** -/
theorem passes_bury_iff (found : FoundAt ht key dist) (differ : other ≠ key) (d : Nat) :
    Passes (bury ht (walkSlot ht key dist)) other d ↔
      Passes ht other d ∧ (walkSlot ht other d = walkSlot ht key dist → d % pslMod = 0) := by
  unfold Passes
  rw [matches_bury_iff found differ]
  by_cases same : walkSlot ht other d = walkSlot ht key dist
  · have occupied : (walkEntry ht other d).state = .occupied := by
      unfold walkEntry
      rw [same]
      exact found.2.occupied
    rw [walkEntry_bury_self same, occupied]
    constructor
    · rintro ⟨-, differs, zero⟩
      have zero : d % pslMod = 0 := Nat.le_zero.mp zero
      exact ⟨⟨by decide, differs, by omega⟩, fun _ => zero⟩
    · rintro ⟨⟨-, differs, -⟩, zero⟩
      exact ⟨nofun, differs, (zero same).le⟩
  · rw [walkEntry_bury_of_ne same]
    exact ⟨fun passes => ⟨passes, fun equal => absurd equal same⟩, fun passes => passes.1⟩

/-- **Where another key is found after the deletion.** -/
theorem foundAt_bury_iff (found : FoundAt ht key dist) (differ : other ≠ key) (d : Nat) :
    FoundAt (bury ht (walkSlot ht key dist)) other d ↔
      FoundAt ht other d ∧ ∀ j < d, walkSlot ht other j = walkSlot ht key dist → j % pslMod = 0 := by
  unfold FoundAt
  rw [matches_bury_iff found differ]
  constructor
  · rintro ⟨passes, here⟩
    exact ⟨⟨fun j below => ((passes_bury_iff found differ j).mp (passes j below)).1, here⟩,
      fun j below => ((passes_bury_iff found differ j).mp (passes j below)).2⟩
  · rintro ⟨⟨passes, here⟩, zero⟩
    exact ⟨fun j below => (passes_bury_iff found differ j).mpr ⟨passes j below, zero j below⟩, here⟩

/-- The entry of the other key is not touched. -/
theorem walkEntry_bury_of_found (found : FoundAt ht key dist) (differ : other ≠ key) {d : Nat}
    (foundOther : FoundAt ht other d) :
    walkEntry (bury ht (walkSlot ht key dist)) other d = walkEntry ht other d :=
  walkEntry_bury_of_ne fun same => not_matches_of_slot found differ same foundOther.2

end Bury

/-- **A deletion keeps the lookup of another key exactly when it does not cut its walk.** -/
theorem zedisHtGet_del_iff (ht : ZedisHashTable) (reach : Reachable ht) (key other : Bytes)
    (differ : other ≠ key) (valueCap : Nat) :
    ∃ rc after before, zedisHtDel ht key = some (rc, after) ∧
      zedisHtGet ht other valueCap = some before ∧
      (zedisHtGet after other valueCap = some before ↔ ¬ Severs ht key other) := by
  have inv := reach.inv
  rcases probe_cases inv key with ⟨dist, found, answer⟩ | ⟨missing, answer⟩
  · have kept := bury_inv inv (keySlot_lt inv.positive key dist) found.2.occupied
    rcases zedisHtGet_cases inv other valueCap with ⟨d, foundOther, hit⟩ | ⟨absent, miss⟩
    · refine ⟨0, _, _, zedisHtDel_of_found answer, hit, ?_⟩
      constructor
      · rintro same ⟨dist', d', j, found', foundOther', below, counting, slotEq⟩
        rw [found'.unique found] at slotEq
        rw [foundOther'.unique foundOther] at below
        rcases zedisHtGet_cases kept other valueCap with ⟨d'', foundAfter, -⟩ | ⟨-, missAfter⟩
        · obtain ⟨foundBefore, zero⟩ := (foundAt_bury_iff found differ d'').mp foundAfter
          rw [foundBefore.unique foundOther] at zero
          exact counting (zero j below slotEq)
        · rw [missAfter] at same
          cases same
      · intro whole
        have foundAfter : FoundAt (bury ht (walkSlot ht key dist)) other d :=
          (foundAt_bury_iff found differ d).mpr ⟨foundOther, fun j below slotEq => by
            by_contra counting
            exact whole ⟨dist, d, j, found, foundOther, below, counting, slotEq⟩⟩
        rw [zedisHtGet_of_found kept.positive foundAfter,
          walkEntry_bury_of_found found differ foundOther]
    · refine ⟨0, _, _, zedisHtDel_of_found answer, miss, fun _ => ?_, fun _ => ?_⟩
      · rintro ⟨-, d', -, -, foundOther', -⟩
        exact absent d' foundOther'
      · rcases zedisHtGet_cases kept other valueCap with ⟨d, foundAfter, -⟩ | ⟨-, missAfter⟩
        · exact absurd ((foundAt_bury_iff found differ d).mp foundAfter).1 (absent d)
        · exact missAfter
  · rcases zedisHtGet_cases inv other valueCap with ⟨d, -, hit⟩ | ⟨-, miss⟩
    · refine ⟨-1, ht, _, zedisHtDel_of_missing answer, hit, fun _ => ?_, fun _ => hit⟩
      rintro ⟨dist, -, -, found, -⟩
      exact missing dist found
    · refine ⟨-1, ht, _, zedisHtDel_of_missing answer, miss, fun _ => ?_, fun _ => miss⟩
      rintro ⟨dist, -, -, found, -⟩
      exact missing dist found

/-- An empty table of `capacity` slots in an arena of one mebibyte. -/
def smallTable (capacity : Nat) : ZedisHashTable := ⟨fun _ => zeroEntry, capacity, 0⟩

theorem reachable_of_replay {ok : ZedisHashTable → HtOp → Prop} {capacity : Nat} {ops : List HtOp}
    {ht : ZedisHashTable} (made : (zedisHtInit ⟨2 ^ 20, 0⟩ capacity).isSome)
    (met : ∀ ht, ∀ op ∈ ops, ok ht op)
    (returned : replay htStep (smallTable capacity) ops = some ht) : ReachableBy ok ht := by
  obtain ⟨⟨start, arena'⟩, granted⟩ := Option.isSome_iff_exists.mp made
  refine ⟨_, capacity, start, arena', ops, granted, ?_⟩
  rw [(zedisHtInit_eq granted).2]
  exact Run.of_replay met returned

/-- Three keys with home slot `0` of four, in the slots `0`, `1` and `2`. -/
def sharedHome : List HtOp := [.set [97] [49], .set [101] [50], .set [105] [51]]

/-- In that table, deleting the last of the three keys keeps the second. -/
theorem zedisHtGet_del_iff_sharedHome :
    ∃ ht, Reachable ht ∧ ¬ Severs ht [105] [101] ∧
      ∃ rc after before, zedisHtDel ht [105] = some (rc, after) ∧
        zedisHtGet ht [101] 64 = some before ∧
        (zedisHtGet after [101] 64 = some before ↔ ¬ Severs ht [105] [101]) := by
  obtain ⟨ht, returned⟩ := Option.isSome_iff_exists.mp
    (show (replay htStep (smallTable 4) sharedHome).isSome by decide)
  have reach : Reachable ht := reachable_of_replay (by decide) (fun _ _ _ => trivial) returned
  have law := zedisHtGet_del_iff ht reach [105] [101] (by decide) 64
  have run : ((replay htStep (smallTable 4) sharedHome).bind fun ht => (zedisHtDel ht [105]).bind
      fun deleted => zedisHtGet deleted.2 [101] 64) =
      (replay htStep (smallTable 4) sharedHome).bind fun ht => zedisHtGet ht [101] 64 := by decide
  rw [returned] at run
  refine ⟨ht, reach, ?_, law⟩
  obtain ⟨rc, after, before, deleted, got, iff⟩ := law
  simp only [Option.bind_some, deleted, got] at run
  exact iff.mp run

/-- **A deletion loses another key**: the three keys share the home slot `0`; once the second is
deleted, the third is no longer found. -/
theorem del_loses_key :
    ¬ ∀ ht, Reachable ht → ∀ key other : Bytes, other ≠ key → ∀ valueCap rc after,
      zedisHtDel ht key = some (rc, after) →
        zedisHtGet after other valueCap = zedisHtGet ht other valueCap := by
  intro othersKept
  obtain ⟨ht, returned⟩ := Option.isSome_iff_exists.mp
    (show (replay htStep (smallTable 4) sharedHome).isSome by decide)
  have reach : Reachable ht := reachable_of_replay (by decide) (fun _ _ _ => trivial) returned
  have hit : ((replay htStep (smallTable 4) sharedHome).bind fun ht => zedisHtGet ht [105] 64) =
      some (some ⟨[51, 0], 1⟩) := by decide
  have miss : ((replay htStep (smallTable 4) sharedHome).bind fun ht =>
      (zedisHtDel ht [101]).bind fun deleted => zedisHtGet deleted.2 [105] 64) = some none := by
    decide
  rw [returned, Option.bind_some] at hit miss
  obtain ⟨⟨rc, after⟩, deleted, got⟩ := Option.bind_eq_some_iff.mp miss
  have same := othersKept ht reach [101] [105] (by decide) 64 rc after deleted
  rw [got, hit] at same
  cases same

end Zedis.HashTable

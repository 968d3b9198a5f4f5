/-
**What a failed write leaves behind.**

A request takes the index of its key first and only then reaches the checks of the member, the value
and the log. Where the key already has an index, or none is left, a failed request changes nothing. For
a new key it does: if the key table refuses the key the index is used up, and if a later check fails
the key stays stored with an empty set or list. So a failed request leaves no trace exactly when it
could not take a new index (`failed_write_leaves`).
-/

import Zedis.Registry.Sound

namespace Zedis.Registry

open Zedis.Lib Zedis.HashTable Zedis.BTree Zedis.AppendLog

/-- The return value of a request, and the state it leaves. -/
def regResult (s : Registries) : RegRequest → Option (Int × Registries)
  | .add key score member =>
    (zedisZsetRegAdd s.zsets key score member).map fun (rc, zsets) => (rc, { s with zsets := zsets })
  | .lpush key val =>
    (zedisListRegLpush s.lists s.log key val).map fun (rc, lists, log) =>
      (rc, { s with lists := lists, log := log })

/-- No new index is taken: the key has one, or all are used. -/
def NoNewIndex (reg : KeyIndex) (key : Bytes) : Prop :=
  (∃ i, lookupIndex reg.keys key = some (some i)) ∨ reg.max ≤ reg.used

/-- The condition on a request: it takes no new index, or it passes every check. -/
def Traceless (s : Registries) : RegRequest → Prop
  | .add key _ member => NoNewIndex s.zsets.toKeyIndex key ∨
      ¬ Refused s.zsets.keys key (decimal s.zsets.used) ∧
        member.length ≠ 0 ∧ member.length < zedisBtreeMaxMember
  | .lpush key val => NoNewIndex s.lists.toKeyIndex key ∨
      ¬ Refused s.lists.keys key (decimal s.lists.used) ∧ Accepted s.log key val

section Traces

variable {s : Registries} {zindex lindex : Bytes → Option Nat}

theorem IndexOk.takes_index {reg : KeyIndex} {index : Bytes → Option Nat} (ok : IndexOk reg index)
    {key : Bytes} (none : index key = none) (free : reg.used < reg.max) : ¬ NoNewIndex reg key := by
  rintro (⟨i, has⟩ | used)
  · rw [lookupIndex_eq ok, none] at has
    cases has
  · exact absurd free (Nat.not_lt.mpr used)

theorem IndexOk.has_index {reg : KeyIndex} {index : Bytes → Option Nat} (ok : IndexOk reg index)
    {key : Bytes} {i : Nat} (has : index key = some i) : NoNewIndex reg key :=
  Or.inl ⟨i, by rw [lookupIndex_eq ok, has]⟩

/-- A state in which an index more is used is another state. -/
theorem used_ne {reg : KeyIndex} {keys : ZedisHashTable} :
    ({ reg with keys := keys, used := reg.used + 1 } : KeyIndex) ≠ reg := fun same =>
  Nat.succ_ne_self reg.used (congrArg KeyIndex.used same)

theorem zadd_traces (inv : ZsetInv s.zsets zindex) (key : Bytes) (score : Int) (member : Bytes) :
    ∃ rc next, regResult s (.add key score member) = some (rc, next) ∧
      ((rc = -1 → next = s) ↔ Traceless s (.add key score member)) := by
  obtain ⟨found, fields, index', rc, after, added, result, outcome, -⟩ :=
    zedisZsetRegAdd_cases inv key score member
  refine ⟨rc, { s with zsets := after }, by rw [regResult, added]; rfl, ?_⟩
  cases result with
  | found i has =>
    refine ⟨fun _ => Or.inl (inv.index.has_index has), fun _ failed => ?_⟩
    cases outcome with
    | onTree _ t t' _ tree set change =>
      cases change with
      | refused _ => rw [Function.update_eq_self]
      | updated _ _ _ _ _ _ _ => cases failed
      | added _ _ _ _ _ _ => cases failed
  | full none used =>
    refine ⟨fun _ => Or.inl (Or.inr used), fun _ _ => ?_⟩
    cases outcome with
    | noIndex => rfl
  | burned none free refused =>
    cases outcome with
    | noIndex =>
      refine ⟨fun unchanged => absurd (congrArg (·.zsets.toKeyIndex) (unchanged rfl)) used_ne, ?_⟩
      rintro (same | ⟨stored, -⟩)
      · exact absurd same (inv.index.takes_index none free)
      · exact absurd refused stored
  | assigned keys none free stored =>
    obtain ⟨empty, room⟩ := inv.unused s.zsets.used le_rfl free
    cases outcome with
    | onTree _ t t' _ tree set change =>
      cases change with
      | refused why =>
        refine ⟨fun unchanged => absurd (congrArg (·.zsets.toKeyIndex) (unchanged rfl)) used_ne, ?_⟩
        rintro (same | ⟨-, nonempty, short⟩)
        · exact absurd same (inv.index.takes_index none free)
        · rcases why with zero | long | ⟨-, full⟩
          · exact absurd zero nonempty
          · exact absurd short (Nat.not_lt.mpr long)
          · rw [empty] at full
            exact absurd full room.ne
      | updated _ _ nonempty short _ _ _ =>
        exact ⟨fun _ => Or.inr ⟨stored, nonempty, short⟩, nofun⟩
      | added _ nonempty short _ _ _ =>
        exact ⟨fun _ => Or.inr ⟨stored, nonempty, short⟩, nofun⟩

theorem lpush_traces (ok : IndexOk s.lists.toKeyIndex lindex) (key val : Bytes) :
    ∃ rc next, regResult s (.lpush key val) = some (rc, next) ∧
      ((rc = -1 → next = s) ↔ Traceless s (.lpush key val)) := by
  obtain ⟨found, fields, index', rc, after, log', pushed, result, -, keyFields, outcome⟩ :=
    zedisListRegLpush_cases ok s.log key val
  refine ⟨rc, { s with lists := after, log := log' }, by rw [regResult, pushed]; rfl, ?_⟩
  -- a failed request for which the key fields are as before
  have untouched : fields = s.lists.toKeyIndex → rc = -1 →
      ({ s with lists := after, log := log' } : Registries) = s := by
    intro same failed
    rcases outcome with ⟨-, lists, rfl, -⟩ | ⟨i, rfl, -⟩
    · have whole : after = s.lists := by
        cases after with
        | mk toKeyIndex metas =>
          cases lists
          cases keyFields.trans same
          rfl
      rw [whole]
    · cases failed
  have touched : fields ≠ s.lists.toKeyIndex →
      ({ s with lists := after, log := log' } : Registries) ≠ s := fun differs same =>
    differs (keyFields.symm.trans (congrArg (·.lists.toKeyIndex) same))
  cases result with
  | found i has => exact ⟨fun _ => Or.inl (ok.has_index has), fun _ => untouched rfl⟩
  | full none used => exact ⟨fun _ => Or.inl (Or.inr used), fun _ => untouched rfl⟩
  | burned none free refused =>
    rcases outcome with ⟨rfl, -⟩ | ⟨i, -, missing, -⟩
    · refine ⟨fun unchanged => absurd (unchanged rfl) (touched used_ne), ?_⟩
      rintro (same | ⟨stored, -⟩)
      · exact absurd same (ok.takes_index none free)
      · exact absurd refused stored
    · cases missing
  | assigned keys none free stored =>
    rcases outcome with ⟨rfl, -, -, why⟩ | ⟨i, rfl, -, accepted, -⟩
    · refine ⟨fun unchanged => absurd (unchanged rfl) (touched used_ne), ?_⟩
      rintro (same | ⟨-, accepted⟩)
      · exact absurd same (ok.takes_index none free)
      · rcases why with missing | refused
        · cases missing
        · exact absurd accepted refused
    · exact ⟨fun _ => Or.inr ⟨stored, accepted⟩, nofun⟩

end Traces

/-- **A failed write leaves no trace exactly when it could take no new index.** -/
theorem failed_write_leaves {s : Registries} (reach : ReachableBy Always s) (op : RegRequest) :
    ∃ rc next, regResult s op = some (rc, next) ∧ ((rc = -1 → next = s) ↔ Traceless s op) := by
  obtain ⟨⟨zindex, zinv⟩, ⟨lindex, lok⟩⟩ := reach.inv
  cases op with
  | add key score member => exact zadd_traces zinv key score member
  | lpush key val => exact lpush_traces lok key val

/-- A member that is too long, for a new key: the key keeps its index. -/
theorem failed_zadd_keeps_key : ∃ s next, ReachableBy Always s ∧
    regResult s (.add [107] 1 (List.replicate 48 97)) = some (-1, next) ∧
      s.zsets.used = 0 ∧ next.zsets.used = 1 ∧ lookupIndex next.zsets.keys [107] = some (some 0) := by
  obtain ⟨s, made⟩ := Option.isSome_iff_exists.mp
    (show (sampleRegistries 4096).isSome by decide +kernel)
  have unused : (sampleRegistries 4096).map (fun s => s.zsets.used) = some 0 := by decide +kernel
  have failed : (sampleRegistries 4096).bind (fun s =>
      (regResult s (.add [107] 1 (List.replicate 48 97))).map fun result =>
        (result.1, result.2.zsets.used, lookupIndex result.2.zsets.keys [107])) =
      some (-1, 1, some (some 0)) := by decide +kernel
  rw [made, Option.map_some, Option.some.injEq] at unused
  rw [made, Option.bind_some] at failed
  obtain ⟨⟨rc, next⟩, ends, facts⟩ := Option.map_eq_some_iff.mp failed
  simp only [Prod.mk.injEq] at facts
  obtain ⟨rfl, used, found⟩ := facts
  exact ⟨s, next, ⟨s, [], sampleRegistries_fresh made, .nil s⟩, ends, unused, used, found⟩

/-- A member that is too long, for a key that has an index. -/
theorem failed_write_leaves_known_key : ∃ s, ReachableBy Always s ∧
    regResult s (.add [107] 1 (List.replicate 48 97)) = some (-1, s) := by
  obtain ⟨s, played⟩ := Option.isSome_iff_exists.mp
    (show ((sampleRegistries 4096).bind fun s => regStep s (.add [107] 1 [97])).isSome by
      decide +kernel)
  have facts : ((sampleRegistries 4096).bind fun s => regStep s (.add [107] 1 [97])).map (fun s =>
      (lookupIndex s.zsets.keys [107],
        (regResult s (.add [107] 1 (List.replicate 48 97))).map Prod.fst)) =
      some (some (some 0), some (-1)) := by decide +kernel
  rw [played, Option.map_some, Option.some.injEq, Prod.mk.injEq] at facts
  obtain ⟨start, made, taken⟩ := Option.bind_eq_some_iff.mp played
  have reach : ReachableBy Always s :=
    ⟨start, [.add [107] 1 [97]], sampleRegistries_fresh made, .cons trivial taken (.nil s)⟩
  obtain ⟨rc, next, ends, sharp⟩ := failed_write_leaves reach (.add [107] 1 (List.replicate 48 97))
  have failed : rc = -1 := by
    have code := facts.2
    rw [ends] at code
    exact Option.some.inj code
  refine ⟨s, reach, ?_⟩
  rw [ends, failed, sharp.mpr (Or.inl (Or.inl ⟨0, facts.1⟩)) failed]

end Zedis.Registry

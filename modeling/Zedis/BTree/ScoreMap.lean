/-
**A sorted set is a bounded finite map.**

`loggedStep` runs `zedis_btree_add` and keeps a log of the calls that returned `0`, newest first. The
log is the map: `zedis_btree_score` of a member is the score of its newest entry, and the tree is
full when the log has as many distinct members as the tree was made for.

* `Logged`: the members of the tree are those of the log, with their newest scores;
* `loggedStep_kept`: each call keeps this;
* `score_map`: what it says about scores, refusals and other members, after any calls.
-/

import Zedis.BTree.Reach
import Mathlib.Data.List.Dedup

namespace Zedis.BTree

open Zedis.Lib Zedis.Arena

/-- The newest entry of a member. -/
def newest (log : List BtreeAdd) (member : Bytes) : Option BtreeAdd :=
  log.find? fun op => op.member == member

/-- The members of a log, each once. -/
def loggedMembers (log : List BtreeAdd) : List Bytes := (log.map BtreeAdd.member).dedup

/-- A call, and the log of the calls that returned `0`. -/
def loggedStep (state : ZedisBtree × List BtreeAdd) (op : BtreeAdd) :
    Option (ZedisBtree × List BtreeAdd) :=
  (zedisBtreeAdd state.1 op.score op.member).map fun result =>
    (result.2, if result.1 = 0 then op :: state.2 else state.2)

/-- **The tree and the log agree.** -/
structure Logged (tree : ZedisBtree) (log : List BtreeAdd) : Prop where
  scores : ∀ i < tree.memberCount, (newest log (tree.members i).data).map BtreeAdd.score =
    some (tree.members i).score
  present : ∀ op ∈ log, ∃ i < tree.memberCount, (tree.members i).data = op.member

section Log

variable {log : List BtreeAdd} {op : BtreeAdd} {member : Bytes}

theorem newest_self : newest (op :: log) op.member = some op := by
  simp [newest]

theorem newest_other (other : member ≠ op.member) : newest (op :: log) member = newest log member := by
  simp [newest, other.symm]

theorem newest_eq_none_iff : newest log member = none ↔ ∀ op ∈ log, op.member ≠ member := by
  simp [newest]

end Log

section Step

variable {tree : ZedisBtree} {t : ScoreTrees} {log : List BtreeAdd}

theorem Logged.newest_none (logged : Logged tree log) {member : Bytes} :
    newest log member = none ↔ ∀ i < tree.memberCount, (tree.members i).data ≠ member := by
  rw [newest_eq_none_iff]
  constructor
  · intro absent i below same
    have found := logged.scores i below
    rw [same, newest_eq_none_iff.mpr absent] at found
    cases found
  · intro absent op present same
    obtain ⟨i, below, data⟩ := logged.present op present
    exact absent i below (data.trans same)

/-- The tree has as many members as the log. -/
theorem Logged.count (logged : Logged tree log) (inv : SetInv tree t) :
    (loggedMembers log).length = tree.memberCount := by
  have nodup : (cells (fun i => (tree.members i).data) tree.memberCount).Nodup := by
    refine List.Nodup.map_on ?_ List.nodup_range
    exact fun i below j below' => inv.distinct i (List.mem_range.mp below) j (List.mem_range.mp below')
  have same : (loggedMembers log).Perm (cells (fun i => (tree.members i).data) tree.memberCount) := by
    refine (List.perm_ext_iff_of_nodup (List.nodup_dedup _) nodup).mpr fun member => ?_
    rw [List.mem_dedup, List.mem_map, mem_cells]
    constructor
    · rintro ⟨op, present, rfl⟩
      exact logged.present op present
    · rintro ⟨i, below, rfl⟩
      by_contra absent
      refine logged.newest_none.mp (newest_eq_none_iff.mpr fun op present equal => ?_) i below rfl
      exact absent ⟨op, present, equal⟩
  rw [same.length_eq, length_cells]

/-- **A score is read from the newest entry.** -/
theorem Logged.score (logged : Logged tree log) (inv : SetInv tree t) (member : Bytes) :
    zedisBtreeScore tree member = some ((newest log member).map BtreeAdd.score) := by
  unfold zedisBtreeScore
  rcases lookupMember_cases inv member with ⟨i, below, rfl, found⟩ | ⟨absent, found⟩
  · rw [found, logged.scores i below]
    rfl
  · rw [found, logged.newest_none.mpr absent]
    rfl

/-- A present member gets a new score. -/
theorem Logged.update {op : BtreeAdd} {after : ZedisBtree} {i : Nat} (inv : SetInv tree t)
    (logged : Logged tree log) (below : i < tree.memberCount) (same : (tree.members i).data = op.member)
    (count : after.memberCount = tree.memberCount)
    (members : after.members = rescored tree.members i op.score) : Logged after (op :: log) := by
  constructor
  · intro j within
    rw [count] at within
    rw [members, rescored_data]
    by_cases equal : j = i
    · rw [equal, same, newest_self, rescored, Function.update_self]
      rfl
    · have other : (tree.members j).data ≠ op.member := fun data =>
        equal (inv.distinct j within i below (data.trans same.symm))
      rw [newest_other other, rescored, Function.update_of_ne equal]
      exact logged.scores j within
  · intro entry present
    rw [count, members]
    simp only [rescored_data]
    rcases List.mem_cons.mp present with rfl | old
    · exact ⟨i, below, same⟩
    · exact logged.present entry old

/-- A new member is added. -/
theorem Logged.add {op : BtreeAdd} {after : ZedisBtree} (logged : Logged tree log)
    (absent : ∀ i < tree.memberCount, (tree.members i).data ≠ op.member)
    (count : after.memberCount = tree.memberCount + 1)
    (members : after.members =
      Function.update tree.members tree.memberCount ⟨op.member, op.score⟩) :
    Logged after (op :: log) := by
  have new : after.members tree.memberCount = ⟨op.member, op.score⟩ := by
    rw [members, Function.update_self]
  have old : ∀ j < tree.memberCount, after.members j = tree.members j := fun j within => by
    rw [members, Function.update_of_ne within.ne]
  constructor
  · intro j within
    rw [count] at within
    rcases Nat.lt_or_eq_of_le (Nat.le_of_lt_succ within) with below | rfl
    · rw [old j below, newest_other (absent j below)]
      exact logged.scores j below
    · rw [new, newest_self]
      rfl
  · intro entry present
    rw [count]
    rcases List.mem_cons.mp present with rfl | earlier
    · exact ⟨tree.memberCount, Nat.lt_succ_self _, by rw [new]⟩
    · obtain ⟨i, below, data⟩ := logged.present entry earlier
      exact ⟨i, below.trans (Nat.lt_succ_self _), by rw [old i below, data]⟩

/-- **One call**: its result, the log after it, and the state if it is refused. -/
theorem loggedStep_kept (inv : SetInv tree t) (logged : Logged tree log) (op : BtreeAdd) :
    ∃ rc after t', zedisBtreeAdd tree op.score op.member = some (rc, after) ∧ SetInv after t' ∧
      after.maxMembers = tree.maxMembers ∧
      (rc = -1 ∧ after = tree ∨ rc = 0 ∧ Logged after (op :: log)) ∧
      (rc = -1 ↔ op.member.length = 0 ∨ op.member.length ≥ zedisBtreeMaxMember ∨
        newest log op.member = none ∧ tree.memberCount = tree.maxMembers) := by
  obtain ⟨rc, after, t', ends, result, kept⟩ := zedisBtreeAdd_cases inv op
  rw [logged.newest_none]
  refine ⟨rc, after, t', ends, kept, result.maxMembers, ?_, result.refused_iff⟩
  cases result with
  | refused reason => exact Or.inl ⟨rfl, rfl⟩
  | updated i _ _ _ below same rest =>
    exact Or.inr ⟨rfl, logged.update inv below same (by rw [rest]) (by rw [rest])⟩
  | added _ _ _ absent _ rest =>
    exact Or.inr ⟨rfl, logged.add absent (by rw [rest]) (by rw [rest])⟩

/-- The tree and the log agree after any calls. -/
theorem logged_run {start : ZedisBtree} (inv : SetInv start .empty) (empty : start.memberCount = 0)
    {ops : List BtreeAdd} (run : Run loggedStep Always (start, []) ops (tree, log)) :
    (∃ t, SetInv tree t) ∧ tree.maxMembers = start.maxMembers ∧ Logged tree log := by
  have nothing : Logged start [] := ⟨fun i below => by omega, nofun⟩
  refine run.invariant (fun state => (∃ t, SetInv state.1 t) ∧
    state.1.maxMembers = start.maxMembers ∧ Logged state.1 state.2) ?_ ⟨⟨_, inv⟩, rfl, nothing⟩
  rintro ⟨tree, log⟩ op next ⟨⟨t, inv⟩, size, logged⟩ - taken
  obtain ⟨rc, after, t', ends, kept, sameSize, outcome, -⟩ := loggedStep_kept inv logged op
  rw [loggedStep, ends] at taken
  cases taken
  refine ⟨⟨t', kept⟩, sameSize.trans size, ?_⟩
  rcases outcome with ⟨rfl, rfl⟩ | ⟨rfl, loggedAfter⟩
  · exact logged
  · exact loggedAfter

/-- **A sorted set is a bounded finite map.** -/
theorem score_map {arena arena' : ZedisArena} {maxMembers : Nat} {start : ZedisBtree}
    (made : zedisBtreeInit arena maxMembers = some (start, arena')) {ops : List BtreeAdd}
    (run : Run loggedStep Always (start, []) ops (tree, log)) :
    (∀ member, zedisBtreeScore tree member = some ((newest log member).map BtreeAdd.score)) ∧
      ∀ op : BtreeAdd, ∃ rc after, zedisBtreeAdd tree op.score op.member = some (rc, after) ∧
        (rc = 0 ∨ rc = -1) ∧
        (rc = -1 ↔ op.member.length = 0 ∨ op.member.length ≥ 48 ∨
          newest log op.member = none ∧ (loggedMembers log).length = min maxMembers 4096) ∧
        (rc = -1 → after = tree) ∧
        ∀ other, other ≠ op.member → zedisBtreeScore after other = zedisBtreeScore tree other := by
  obtain ⟨initial, empty, size⟩ := zedisBtreeInit_inv made
  obtain ⟨⟨t, inv⟩, sameSize, logged⟩ := logged_run initial empty run
  refine ⟨logged.score inv, fun op => ?_⟩
  obtain ⟨rc, after, t', ends, kept, -, outcome, refused⟩ := loggedStep_kept inv logged op
  rw [← logged.count inv, sameSize, size] at refused
  refine ⟨rc, after, ends, ?_, refused, ?_, ?_⟩
  · rcases outcome with ⟨failed, -⟩ | ⟨done, -⟩
    · exact Or.inr failed
    · exact Or.inl done
  · rcases outcome with ⟨-, same⟩ | ⟨rfl, -⟩
    · exact fun _ => same
    · nofun
  · intro other different
    rcases outcome with ⟨-, rfl⟩ | ⟨-, loggedAfter⟩
    · rfl
    · rw [loggedAfter.score kept, logged.score inv, newest_other different]

end Step

/-! ### The scores after a call -/

section Scores

variable {tree after : ZedisBtree} {t t' : ScoreTrees}

/-- A score is found exactly for what the member array holds. -/
theorem SetInv.score_eq_some_iff (inv : SetInv tree t) {member : Bytes} {score : Int} :
    zedisBtreeScore tree member = some (some score) ↔
      ∃ i < tree.memberCount, tree.members i = ⟨member, score⟩ := by
  refine ⟨fun found => ?_, fun ⟨i, below, holds⟩ => inv.score below holds⟩
  unfold zedisBtreeScore at found
  rcases lookupMember_cases inv member with ⟨i, below, same, isFound⟩ | ⟨-, isFound⟩
  · rw [isFound, Option.map_some, Option.map_some, Option.some.injEq, Option.some.injEq] at found
    exact ⟨i, below, by rw [← same, ← found]⟩
  · rw [isFound] at found
    cases found

theorem SetInv.score_returns (inv : SetInv tree t) (member : Bytes) :
    ∃ found, zedisBtreeScore tree member = some found := by
  unfold zedisBtreeScore
  rcases lookupMember_cases inv member with ⟨i, -, -, isFound⟩ | ⟨-, isFound⟩
  · exact ⟨_, by rw [isFound]; rfl⟩
  · exact ⟨_, by rw [isFound]; rfl⟩

/-- Two trees that hold the same under a name have the same score for it. -/
theorem SetInv.score_congr (inv : SetInv tree t) (inv' : SetInv after t') {member : Bytes}
    (same : ∀ score, (∃ i < after.memberCount, after.members i = ⟨member, score⟩) ↔
      ∃ i < tree.memberCount, tree.members i = ⟨member, score⟩) :
    zedisBtreeScore after member = zedisBtreeScore tree member := by
  obtain ⟨old, isOld⟩ := inv.score_returns member
  obtain ⟨new, isNew⟩ := inv'.score_returns member
  rw [isOld, isNew]
  apply congrArg some
  ext score
  have before := @SetInv.score_eq_some_iff tree t inv member score
  have later := @SetInv.score_eq_some_iff after t' inv' member score
  rw [isOld, Option.some.injEq] at before
  rw [isNew, Option.some.injEq] at later
  rw [before, later, same]

/-- **The scores after a call**: the one of its member is stored, the others stay; or nothing changes,
and then the member was not there. -/
theorem AddResult.scores {op : BtreeAdd} {rc : Int} {u : ScoreTrees} (inv : SetInv tree t)
    (result : AddResult tree t op rc after t') (kept : SetInv after u) :
    (rc = -1 ∧ after = tree ∧ zedisBtreeScore tree op.member = some none) ∨
      rc = 0 ∧ zedisBtreeScore after op.member = some (some op.score) ∧
        ∀ other, other ≠ op.member → zedisBtreeScore after other = zedisBtreeScore tree other := by
  cases result with
  | refused reason =>
    refine Or.inl ⟨rfl, rfl, ?_⟩
    rcases lookupMember_cases inv op.member with ⟨i, below, same, -⟩ | ⟨-, isFound⟩
    · obtain ⟨nonempty, short⟩ := inv.lengths i below
      rw [same] at nonempty short
      rcases reason with empty | long | full
      · exact absurd empty nonempty
      · exact absurd short long.not_gt
      · exact absurd same (full.1 i below)
    · rw [zedisBtreeScore, isFound]
      rfl
  | updated i _ nonempty short below same rest =>
    have members : after.members = rescored tree.members i op.score := by rw [rest]
    have count : after.memberCount = tree.memberCount := by rw [rest]
    refine Or.inr ⟨rfl, kept.score (count ▸ below) ?_, fun other differs => ?_⟩
    · rw [members, ← same]
      exact Function.update_self ..
    · refine inv.score_congr kept fun score => ?_
      rw [count, members]
      refine exists_congr fun j => and_congr_right fun _ => ?_
      by_cases target : j = i
      · subst target
        rw [rescored, Function.update_self]
        refine iff_of_false (fun holds => differs ?_) fun holds => differs ?_
        · rw [← same]
          exact (congrArg BtreeMember.data holds).symm
        · rw [← same, holds]
      · rw [rescored, Function.update_of_ne target]
  | added _ nonempty short absent room rest =>
    have members : after.members =
        Function.update tree.members tree.memberCount ⟨op.member, op.score⟩ := by rw [rest]
    have count : after.memberCount = tree.memberCount + 1 := by rw [rest]
    refine Or.inr ⟨rfl, kept.score (by rw [count]; exact Nat.lt_succ_self tree.memberCount) ?_,
      fun other differs => ?_⟩
    · rw [members]
      exact Function.update_self ..
    · refine inv.score_congr kept fun score => ?_
      rw [count, members]
      constructor
      · rintro ⟨j, within, holds⟩
        rcases Nat.lt_or_eq_of_le (Nat.le_of_lt_succ within) with below | rfl
        · rw [Function.update_of_ne below.ne] at holds
          exact ⟨j, below, holds⟩
        · rw [Function.update_self] at holds
          exact absurd (congrArg BtreeMember.data holds).symm differs
      · rintro ⟨j, below, holds⟩
        exact ⟨j, Nat.lt_succ_of_lt below, by rw [Function.update_of_ne below.ne, holds]⟩

end Scores

/-- A full tree of two members refuses a third and gives the second a new score. -/
theorem score_map_full : ∃ start arena' tree log,
    zedisBtreeInit ⟨2 ^ 20, 0⟩ 2 = some (start, arena') ∧
      Run loggedStep Always (start, []) [⟨3, [97]⟩, ⟨1, [98]⟩, ⟨2, [99]⟩, ⟨5, [98]⟩] (tree, log) ∧
      log = [⟨5, [98]⟩, ⟨1, [98]⟩, ⟨3, [97]⟩] ∧
      zedisBtreeScore tree [98] = some (some 5) := by
  have logs : ((zedisBtreeInit ⟨2 ^ 20, 0⟩ 2).bind fun made => (replay loggedStep (made.1, [])
      [⟨3, [97]⟩, ⟨1, [98]⟩, ⟨2, [99]⟩, ⟨5, [98]⟩]).map Prod.snd) =
      some [⟨5, [98]⟩, ⟨1, [98]⟩, ⟨3, [97]⟩] := by decide +kernel
  obtain ⟨⟨start, arena'⟩, made, returned⟩ := Option.bind_eq_some_iff.mp logs
  obtain ⟨⟨tree, log⟩, replayed, rfl⟩ := Option.map_eq_some_iff.mp returned
  have run : Run loggedStep Always (start, []) _ (tree, _) :=
    Run.of_replay (fun _ _ _ => trivial) replayed
  exact ⟨start, arena', tree, _, made, run, rfl, (score_map made run).1 [98]⟩

end Zedis.BTree

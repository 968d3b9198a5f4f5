/-
**What holds in every tree a run can reach.**

`SetInv tree t`: the pool holds the search tree `t`, whose entries are the members with their
scores, each once; the members are distinct and within their length limits. `zedisBtreeAdd_cases`
says everything one call can do: it refuses and changes nothing, or stores a new score and rebuilds
the tree from the member array (`builtFrom`), or adds a member and inserts its entry. The node pool
never runs out on the way, because a filled tree has fewer than two nodes for each entry.
-/

import Zedis.BTree.Traverse
import Zedis.Lib.Run

namespace Zedis.BTree

open Zedis.Lib Zedis.Lib.LeafTree Zedis.Arena

/-- The entries of the first `n` members. -/
def memberEntries (members : Nat → BtreeMember) (n : Nat) : List (Int × Nat) :=
  cells (fun i => ((members i).score, i)) n

/-- The tree of the first `n` members, inserted in the order of their indices. -/
def builtFrom (members : Nat → BtreeMember) (n : Nat) : ScoreTrees :=
  (memberEntries members n).foldl (RootedTree.insert Prod.fst (entryLe members)) .empty

/-- The pool holds the tree, with the first `n` members in it. -/
structure Built (tree : ZedisBtree) (t : ScoreTrees) (n : Nat) : Prop where
  stored : Stored tree t
  sorted : (t.tokens Prod.fst).Pairwise (· ≤ ·)
  entries : t.entries.Perm (memberEntries tree.members n)

/-- The size of the pools. -/
structure Sized (tree : ZedisBtree) : Prop where
  members : tree.memberCount ≤ tree.maxMembers
  nodes : tree.maxNodes = tree.maxMembers * 2 + 4

/-- **The invariant of every reachable tree.** -/
structure SetInv (tree : ZedisBtree) (t : ScoreTrees) : Prop where
  built : Built tree t tree.memberCount
  sized : Sized tree
  distinct : ∀ i < tree.memberCount, ∀ j < tree.memberCount,
    (tree.members i).data = (tree.members j).data → i = j
  lengths : ∀ i < tree.memberCount, (tree.members i).data.length ≠ 0 ∧
    (tree.members i).data.length < zedisBtreeMaxMember

/-- A tree that `zedis_btree_init` and then calls meeting `ok` lead to. -/
def ReachableBy (ok : ZedisBtree → BtreeAdd → Prop) (tree : ZedisBtree) : Prop :=
  ∃ arena maxMembers start arena' ops, zedisBtreeInit arena maxMembers = some (start, arena') ∧
    Run btreeStep ok start ops tree

/-- A tree that `zedis_btree_init` and then any calls lead to. -/
abbrev Reachable (tree : ZedisBtree) : Prop := ReachableBy Always tree

/-! ### The order of the entries -/

theorem entryLe_iff {members : Nat → BtreeMember} {a b : Int × Nat} : entryLe members a b ↔
    a.1 < b.1 ∨ a.1 = b.1 ∧ (members a.2).data ≤ (members b.2).data := by
  unfold entryLe scoreMemberCmp
  by_cases same : a.1 = b.1
  · rw [if_neg (not_not.mpr same), bytesCmp_le_zero_iff]
    exact ⟨fun le => Or.inr ⟨same, le⟩, fun either => (either.resolve_left same.not_lt).2⟩
  · rw [if_pos same]
    by_cases less : a.1 < b.1
    · rw [if_pos less]
      exact ⟨fun _ => Or.inl less, fun _ => by decide⟩
    · rw [if_neg less]
      exact ⟨fun absurd => by omega, fun either => (either.elim less fun both => same both.1).elim⟩

theorem refines_entryLe (members : Nat → BtreeMember) : Refines Prod.fst (entryLe members) where
  le_key := by
    intro a b le
    rcases entryLe_iff.mp le with less | both
    · exact less.le
    · exact both.1.le
  not_le_key := by
    intro a b notLe
    rw [entryLe_iff, not_or] at notLe
    exact not_lt.mp notLe.1

/-! ### Insertion of the next member -/

section Build

variable {tree : ZedisBtree} {t : ScoreTrees} {n : Nat}

theorem memberEntries_succ (members : Nat → BtreeMember) (n : Nat) :
    memberEntries members (n + 1) = memberEntries members n ++ [((members n).score, n)] :=
  cells_succ _ _

theorem builtFrom_succ (members : Nat → BtreeMember) (n : Nat) : builtFrom members (n + 1) =
    (builtFrom members n).insert Prod.fst (entryLe members) ((members n).score, n) := by
  rw [builtFrom, memberEntries_succ, List.foldl_append]
  rfl

/-- **The next member is inserted.** -/
theorem Built.insertEntry (built : Built tree t n) (sized : Sized tree) (below : n < tree.maxMembers) :
    ∃ after, insertEntry tree (tree.members n).score n = some (0, after) ∧
      after = { tree with nodes := after.nodes, root := after.root, freeNode := after.freeNode } ∧
      Built after (t.insert Prod.fst (entryLe tree.members) ((tree.members n).score, n)) (n + 1) := by
  have entries : (t.insert Prod.fst (entryLe tree.members)
      ((tree.members n).score, n)).entries.Perm (memberEntries tree.members (n + 1)) := by
    rw [memberEntries_succ]
    refine (RootedTree.perm_entries_insert t _).trans ((built.entries.cons _).trans ?_)
    exact (List.perm_append_singleton _ _).symm
  have filled := RootedTree.insert_filled Prod.fst (entryLe tree.members) t
    ((tree.members n).score, n) built.stored.filled
  have small := RootedTree.size_le _ filled
  rw [entries.length_eq, memberEntries, length_cells] at small
  have pool := sized.nodes
  obtain ⟨after, ends, rest, stored⟩ := insertEntry_refines built.stored
    (tree.members n).score n (by omega)
  refine ⟨after, ends, rest, stored,
    RootedTree.pairwise_tokens_insert (refines_entryLe tree.members) t _ built.sorted, ?_⟩
  rw [rest]
  exact entries

/-- A rebuild starts from an empty pool. -/
theorem Built.cleared (tree : ZedisBtree) :
    Built { tree with nodes := fun _ => zeroNode, root := none, freeNode := 0 } .empty 0 :=
  ⟨⟨rfl, rfl⟩, List.Pairwise.nil, List.Perm.refl _⟩

/-- **A rebuild inserts all members, in the order of their indices.** -/
theorem rebuildBtree_built (sized : Sized tree) :
    ∃ after, rebuildBtree tree = some after ∧
      after = { tree with nodes := after.nodes, root := after.root, freeNode := after.freeNode } ∧
      Built after (builtFrom tree.members tree.memberCount) tree.memberCount := by
  unfold rebuildBtree
  -- the loop after `n` members
  suffices loop : ∀ n ≤ tree.memberCount, ∃ after, (List.range n).foldlM
      (fun (tree : ZedisBtree) i => (insertEntry tree (tree.members i).score i).map Prod.snd)
      { tree with nodes := fun _ => zeroNode, root := none, freeNode := 0 } = some after ∧
      after = { tree with nodes := after.nodes, root := after.root, freeNode := after.freeNode } ∧
      Built after (builtFrom tree.members n) n from loop _ (Nat.le_refl _)
  intro n
  induction n with
  | zero =>
    intro _
    exact ⟨_, rfl, rfl, Built.cleared tree⟩
  | succ n ih =>
    intro le
    obtain ⟨middle, runs, rest, built⟩ := ih (by omega)
    have sizedMiddle : Sized middle := by
      rw [rest]
      exact ⟨sized.members, sized.nodes⟩
    have members : middle.members = tree.members := by rw [rest]
    have below : n < middle.maxMembers := by
      rw [rest]
      exact lt_of_lt_of_le (Nat.lt_of_succ_le le) sized.members
    obtain ⟨after, ends, restAfter, builtAfter⟩ := built.insertEntry sizedMiddle below
    rw [members] at builtAfter
    refine ⟨after, ?_, ?_, builtFrom_succ tree.members n ▸ builtAfter⟩
    · rw [List.range_succ, List.foldlM_append, runs, Option.bind_eq_bind, Option.bind_some,
        List.foldlM_cons, ends]
      rfl
    · rw [restAfter, rest]

end Build

/-! ### A call -/

section Add

variable {tree : ZedisBtree} {t : ScoreTrees}

theorem mem_memberEntries {members : Nat → BtreeMember} {n : Nat} {e : Int × Nat} :
    e ∈ memberEntries members n ↔ e.2 < n ∧ e.1 = (members e.2).score := by
  obtain ⟨score, i⟩ := e
  rw [memberEntries, mem_cells]
  constructor
  · rintro ⟨j, below, same⟩
    cases same
    exact ⟨below, rfl⟩
  · rintro ⟨below, same⟩
    exact ⟨i, below, congrArg (·, i) same.symm⟩

theorem SetInv.size_le (inv : SetInv tree t) : t.size ≤ tree.maxNodes := by
  have small := RootedTree.size_le t inv.built.stored.filled
  rw [inv.built.entries.length_eq, memberEntries, length_cells] at small
  have sized := inv.sized
  have := sized.members
  have := sized.nodes
  omega

/-- **A lookup from the root searches the entries.** -/
theorem lookupMember_eq (inv : SetInv tree t) (member : Bytes) :
    lookupMember tree member = some ((t.entries.map Prod.snd).find? fun midx =>
      memberEqual (tree.members midx) member) := by
  have small := inv.size_le
  have stored := inv.built.stored
  cases t with
  | empty =>
    rw [lookupMember, stored.1]
    rfl
  | root h t =>
    obtain ⟨root, isRoot, rooted, rfl, -⟩ := stored
    have high := height_lt_size h (treeAt tree.nodes h root)
    rw [lookupMember, isRoot, RootedTree.entries, ← membersAt_eq]
    exact findMember_eq member h tree.maxNodes root (high.trans_le small) rooted.shape

/-- **A lookup finds the one member with the given bytes.** -/
theorem lookupMember_cases (inv : SetInv tree t) (member : Bytes) :
    (∃ i < tree.memberCount, (tree.members i).data = member ∧
      lookupMember tree member = some (some i)) ∨
    (∀ i < tree.memberCount, (tree.members i).data ≠ member) ∧
      lookupMember tree member = some none := by
  have within : ∀ i, i ∈ t.entries.map Prod.snd ↔ i < tree.memberCount := by
    intro i
    rw [(inv.built.entries.map Prod.snd).mem_iff, List.mem_map]
    constructor
    · rintro ⟨e, member, rfl⟩
      exact (mem_memberEntries.mp member).1
    · intro below
      exact ⟨((tree.members i).score, i), mem_memberEntries.mpr ⟨below, rfl⟩, rfl⟩
  rw [lookupMember_eq inv]
  cases found : (t.entries.map Prod.snd).find? fun midx => memberEqual (tree.members midx) member with
  | none =>
    refine Or.inr ⟨fun i below same => ?_, rfl⟩
    have misses := List.find?_eq_none.mp found i ((within i).mpr below)
    exact misses (memberEqual_iff.mpr same)
  | some i =>
    have hit := List.find?_some found
    exact Or.inl ⟨i, (within i).mp (List.mem_of_find?_eq_some found), memberEqual_iff.mp hit, rfl⟩

/-- The member array after a new score is stored. -/
def rescored (members : Nat → BtreeMember) (i : Nat) (score : Int) : Nat → BtreeMember :=
  Function.update members i { members i with score := score }

theorem rescored_data (members : Nat → BtreeMember) (i : Nat) (score : Int) (j : Nat) :
    (rescored members i score j).data = (members j).data := by
  by_cases same : j = i
  · subst same
    rw [rescored, Function.update_self]
  · rw [rescored, Function.update_of_ne same]

/-- What a call does. -/
inductive AddResult (tree : ZedisBtree) (t : ScoreTrees) (op : BtreeAdd) :
    Int → ZedisBtree → ScoreTrees → Prop
  | refused :
      (op.member.length = 0 ∨ op.member.length ≥ zedisBtreeMaxMember ∨
        (∀ i < tree.memberCount, (tree.members i).data ≠ op.member) ∧
          tree.memberCount = tree.maxMembers) →
      AddResult tree t op (-1) tree t
  | updated (i : Nat) (after : ZedisBtree) :
      op.member.length ≠ 0 → op.member.length < zedisBtreeMaxMember → i < tree.memberCount →
      (tree.members i).data = op.member →
      after = { tree with
        nodes := after.nodes, root := after.root, freeNode := after.freeNode
        members := rescored tree.members i op.score } →
      AddResult tree t op 0 after (builtFrom (rescored tree.members i op.score) tree.memberCount)
  | added (after : ZedisBtree) :
      op.member.length ≠ 0 → op.member.length < zedisBtreeMaxMember →
      (∀ i < tree.memberCount, (tree.members i).data ≠ op.member) →
      tree.memberCount < tree.maxMembers →
      after = { tree with
        nodes := after.nodes, root := after.root, freeNode := after.freeNode
        members := Function.update tree.members tree.memberCount ⟨op.member, op.score⟩
        memberCount := tree.memberCount + 1 } →
      AddResult tree t op 0 after (t.insert Prod.fst (entryLe after.members)
        (op.score, tree.memberCount))

/-- No call changes the room for members. -/
theorem AddResult.maxMembers {tree after : ZedisBtree} {t t' : ScoreTrees} {op : BtreeAdd} {rc : Int}
    (result : AddResult tree t op rc after t') : after.maxMembers = tree.maxMembers := by
  cases result with
  | refused _ => rfl
  | updated i after _ _ _ _ made => rw [made]
  | added after _ _ _ _ made => rw [made]

/-- When a call is refused. -/
theorem AddResult.refused_iff {tree after : ZedisBtree} {t t' : ScoreTrees} {op : BtreeAdd} {rc : Int}
    (result : AddResult tree t op rc after t') : rc = -1 ↔
      op.member.length = 0 ∨ op.member.length ≥ zedisBtreeMaxMember ∨
        (∀ i < tree.memberCount, (tree.members i).data ≠ op.member) ∧
          tree.memberCount = tree.maxMembers := by
  cases result with
  | refused reason => exact ⟨fun _ => reason, fun _ => rfl⟩
  | updated i _ nonempty short below same _ =>
    refine ⟨nofun, ?_⟩
    rintro (empty | long | full)
    · exact absurd empty nonempty
    · exact absurd short long.not_gt
    · exact absurd same (full.1 i below)
  | added _ nonempty short _ room _ =>
    refine ⟨nofun, ?_⟩
    rintro (empty | long | full)
    · exact absurd empty nonempty
    · exact absurd short long.not_gt
    · exact absurd full.2 room.ne

/-- A call for a present member. -/
theorem SetInv.update (inv : SetInv tree t) (i : Nat) (score : Int) :
    ∃ after, rebuildBtree { tree with members := rescored tree.members i score } = some after ∧
      after = { tree with
        nodes := after.nodes, root := after.root, freeNode := after.freeNode
        members := rescored tree.members i score } ∧
      SetInv after (builtFrom (rescored tree.members i score) tree.memberCount) := by
  have sized : Sized { tree with members := rescored tree.members i score } :=
    ⟨inv.sized.members, inv.sized.nodes⟩
  obtain ⟨after, ends, rest, built⟩ := rebuildBtree_built sized
  have count : after.memberCount = tree.memberCount := by rw [rest]
  have members : after.members = rescored tree.members i score := by rw [rest]
  refine ⟨after, ends, rest, ⟨by rw [count]; exact built, ?_, ?_, ?_⟩⟩
  · rw [rest]
    exact ⟨sized.members, sized.nodes⟩
  · intro j within k within' same
    rw [members, rescored_data, rescored_data] at same
    exact inv.distinct j (count ▸ within) k (count ▸ within') same
  · intro j within
    rw [members, rescored_data]
    exact inv.lengths j (count ▸ within)

/-- A new member is appended to the members, before its entry is inserted. -/
theorem SetInv.appended (inv : SetInv tree t) (m : BtreeMember) :
    Built { tree with
      members := Function.update tree.members tree.memberCount m
      memberCount := tree.memberCount + 1 } t tree.memberCount := by
  refine ⟨inv.built.stored.congr rfl rfl rfl, inv.built.sorted, ?_⟩
  have same : memberEntries (Function.update tree.members tree.memberCount m) tree.memberCount =
      memberEntries tree.members tree.memberCount :=
    cells_congr fun i below => by rw [Function.update_of_ne (by omega)]
  rw [same]
  exact inv.built.entries

/-- A call for a new member. -/
theorem SetInv.add (inv : SetInv tree t) {member : Bytes} (score : Int)
    (nonempty : member.length ≠ 0) (short : member.length < zedisBtreeMaxMember)
    (absent : ∀ i < tree.memberCount, (tree.members i).data ≠ member)
    (room : tree.memberCount < tree.maxMembers) :
    ∃ after, insertEntry { tree with
        members := Function.update tree.members tree.memberCount ⟨member, score⟩
        memberCount := tree.memberCount + 1 } score tree.memberCount = some (0, after) ∧
      after = { tree with
        nodes := after.nodes, root := after.root, freeNode := after.freeNode
        members := Function.update tree.members tree.memberCount ⟨member, score⟩
        memberCount := tree.memberCount + 1 } ∧
      SetInv after (t.insert Prod.fst (entryLe after.members) (score, tree.memberCount)) := by
  generalize made : Function.update tree.members tree.memberCount ⟨member, score⟩ = members
  have new : members tree.memberCount = ⟨member, score⟩ := by
    rw [← made, Function.update_self]
  have old : ∀ i < tree.memberCount, members i = tree.members i := fun i below => by
    rw [← made, Function.update_of_ne (by omega)]
  have built := made ▸ inv.appended ⟨member, score⟩
  have sized : Sized { tree with members := members, memberCount := tree.memberCount + 1 } :=
    ⟨room, inv.sized.nodes⟩
  obtain ⟨after, ends, rest, builtAfter⟩ := built.insertEntry sized room
  simp only [new] at ends builtAfter
  have count : after.memberCount = tree.memberCount + 1 := by rw [rest]
  have afterMembers : after.members = members := by rw [rest]
  refine ⟨after, ends, rest, ⟨?_, ?_, ?_, ?_⟩⟩
  · rw [count, afterMembers]
    exact builtAfter
  · rw [rest]
    exact ⟨sized.members, sized.nodes⟩
  · intro i within j within' same
    rw [count] at within within'
    rw [afterMembers] at same
    rcases Nat.lt_or_eq_of_le (Nat.le_of_lt_succ within) with below | rfl <;>
      rcases Nat.lt_or_eq_of_le (Nat.le_of_lt_succ within') with below' | rfl
    · rw [old i below, old j below'] at same
      exact inv.distinct i below j below' same
    · rw [old i below, new] at same
      exact absurd same (absent i below)
    · rw [old j below', new] at same
      exact absurd same.symm (absent j below')
    · rfl
  · intro i within
    rw [count] at within
    rw [afterMembers]
    rcases Nat.lt_or_eq_of_le (Nat.le_of_lt_succ within) with below | rfl
    · rw [old i below]
      exact inv.lengths i below
    · rw [new]
      exact ⟨nonempty, short⟩

/-- **Everything a call can do**, and the invariant after it. -/
theorem zedisBtreeAdd_cases (inv : SetInv tree t) (op : BtreeAdd) :
    ∃ rc after t', zedisBtreeAdd tree op.score op.member = some (rc, after) ∧
      AddResult tree t op rc after t' ∧ SetInv after t' := by
  unfold zedisBtreeAdd
  by_cases bad : op.member.length = 0 ∨ op.member.length ≥ zedisBtreeMaxMember
  · refine ⟨-1, tree, t, if_pos bad, .refused ?_, inv⟩
    exact bad.imp_right Or.inl
  · rw [if_neg bad]
    rw [not_or, Nat.not_le] at bad
    rcases lookupMember_cases inv op.member with ⟨i, below, same, found⟩ | ⟨absent, found⟩
    · obtain ⟨after, ends, rest, kept⟩ := inv.update i op.score
      refine ⟨0, after, _, ?_, .updated i after bad.1 bad.2 below same rest, kept⟩
      simp only [found, Option.bind_some]
      exact congrArg (Option.map fun tree => ((0 : Int), tree)) ends
    · by_cases full : tree.memberCount ≥ tree.maxMembers
      · refine ⟨-1, tree, t, ?_, .refused (Or.inr (Or.inr ⟨absent, ?_⟩)), inv⟩
        · simp only [found, Option.bind_some, allocMember, if_pos full]
        · exact Nat.le_antisymm inv.sized.members full
      · have room : tree.memberCount < tree.maxMembers := Nat.not_le.mp full
        obtain ⟨after, ends, rest, kept⟩ := inv.add op.score bad.1 bad.2 absent room
        refine ⟨0, after, _, ?_, .added after bad.1 bad.2 absent room rest, kept⟩
        simp only [found, Option.bind_some, allocMember, if_neg full, if_pos bad.2, List.take_length]
        exact ends

/-- A call that returns `0` has stored its member with its score. -/
theorem AddResult.stores {after : ZedisBtree} {t' : ScoreTrees} {op : BtreeAdd} {rc : Int}
    (result : AddResult tree t op rc after t') (done : rc = 0) :
    ∃ i < after.memberCount, after.members i = ⟨op.member, op.score⟩ := by
  cases result with
  | refused _ => exact absurd done (by decide)
  | updated i after _ _ below same made =>
    refine ⟨i, by rw [made]; exact below, ?_⟩
    rw [made, ← same]
    exact Function.update_self ..
  | added after _ _ _ _ made =>
    refine ⟨tree.memberCount, by rw [made]; exact Nat.lt_succ_self _, ?_⟩
    rw [made]
    exact Function.update_self ..

/-- The score of a member is found. -/
theorem SetInv.score (inv : SetInv tree t) {i : Nat} {member : Bytes} {score : Int}
    (below : i < tree.memberCount) (holds : tree.members i = ⟨member, score⟩) :
    zedisBtreeScore tree member = some (some score) := by
  rcases lookupMember_cases inv member with ⟨j, within, same, found⟩ | ⟨absent, -⟩
  · have one : j = i := inv.distinct j within i below (by rw [same, holds])
    rw [zedisBtreeScore, found, one, Option.map_some, Option.map_some, holds]
  · exact absurd (congrArg BtreeMember.data holds) (absent i below)

/-- **The initial tree.** -/
theorem zedisBtreeInit_inv {arena arena' : ZedisArena} {maxMembers : Nat} {start : ZedisBtree}
    (made : zedisBtreeInit arena maxMembers = some (start, arena')) :
    SetInv start .empty ∧ start.memberCount = 0 ∧
      start.maxMembers = min maxMembers zedisBtreeMaxEntries := by
  unfold zedisBtreeInit at made
  split at made
  · cases made
  · obtain ⟨⟨nodesAt, arena₁⟩, -, rest⟩ := Option.bind_eq_some_iff.mp made
    obtain ⟨⟨membersAt, arena₂⟩, -, same⟩ := Option.map_eq_some_iff.mp rest
    cases same
    refine ⟨⟨⟨⟨rfl, rfl⟩, List.Pairwise.nil, List.Perm.refl _⟩, ⟨Nat.zero_le _, rfl⟩, nofun, nofun⟩,
      rfl, ?_⟩
    simp only
    split
    · omega
    · omega

theorem btreeStep_inv {op : BtreeAdd} {next : ZedisBtree} (inv : ∃ t, SetInv tree t)
    (taken : btreeStep tree op = some next) : ∃ t, SetInv next t := by
  obtain ⟨t, inv⟩ := inv
  obtain ⟨rc, after, t', ends, -, kept⟩ := zedisBtreeAdd_cases inv op
  rw [btreeStep, ends] at taken
  cases taken
  exact ⟨t', kept⟩

/-- **Every reachable tree meets the invariant.** -/
theorem ReachableBy.inv {ok : ZedisBtree → BtreeAdd → Prop} (reach : ReachableBy ok tree) :
    ∃ t, SetInv tree t := by
  obtain ⟨arena, maxMembers, start, arena', ops, made, run⟩ := reach
  exact run.invariant (fun tree => ∃ t, SetInv tree t)
    (fun tree op next inv _ taken => btreeStep_inv inv taken) ⟨.empty, (zedisBtreeInit_inv made).1⟩

end Add

/-- A new tree in an arena of a megabyte, after the calls. -/
def sampleTree (maxMembers : Nat) (ops : List BtreeAdd) : Option ZedisBtree :=
  (zedisBtreeInit ⟨2 ^ 20, 0⟩ maxMembers).bind fun made => replay btreeStep made.1 ops

theorem reachable_sampleTree {maxMembers : Nat} {ops : List BtreeAdd} {tree : ZedisBtree}
    (returned : sampleTree maxMembers ops = some tree) : Reachable tree := by
  obtain ⟨⟨start, arena'⟩, made, replayed⟩ := Option.bind_eq_some_iff.mp returned
  exact ⟨_, maxMembers, start, arena', ops, made, Run.of_replay (fun _ _ _ => trivial) replayed⟩

end Zedis.BTree

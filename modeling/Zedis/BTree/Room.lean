/-
**The node pool never runs out.**

`nonfullAllocs` and `entryAllocs` are the trees on which `insert_nonfull` and `insert_entry` call
`alloc_node`, in the order of the calls; `insertCalls` are the calls of `insert_entry` that one
`zedis_btree_add` makes, a rebuild making one for each member. An insertion that returns `0` was
given every node it asked for, and each of them counts among the nodes of the tree it leaves
(`Granted`). These are fewer than two for each entry that the tree had before, so the pool is large
enough at every step of a descent (`Built.fits`), and no result that a rebuild ignores is a failure.
-/

import Zedis.BTree.Reach

namespace Zedis.BTree

open Zedis.Lib Zedis.Lib.LeafTree Zedis.Arena

/-- The number of entries in the tree, as `count_entries` counts them from the root. -/
def entryCount (tree : ZedisBtree) : Option Nat :=
  match tree.root with
  | none => some 0
  | some root => countEntries tree tree.maxNodes root

/-! ### The calls of `alloc_node` -/

/-- The calls during `insert_nonfull`: one before each split. -/
def nonfullAllocs (score : Int) : Nat → ZedisBtree → Nat → List ZedisBtree
  | 0, _, _ => []
  | fuel + 1, tree, nodeIdx =>
    let node := tree.nodes nodeIdx
    if node.isLeaf then []
    else
      let i := descendAt node score
      let child := node.slots i
      if (tree.nodes child).count ≥ btreeMaxKeys then
        tree ::
          match splitNode tree child with
          | none => []
          | some (sibling, promoted, tree) =>
            nonfullAllocs score fuel (adopt tree nodeIdx i promoted sibling)
              (if score ≥ promoted then sibling else child)
      else nonfullAllocs score fuel tree child

/-- The calls during `insert_entry`: a full root is split after the new root is allocated, whether or
not there was a node for it. -/
def entryAllocs (tree : ZedisBtree) (score : Int) : List ZedisBtree :=
  match tree.root with
  | none => [tree]
  | some root =>
    if (tree.nodes root).count < btreeMaxKeys then nonfullAllocs score tree.maxNodes tree root
    else
      tree ::
        match allocNode tree with
        | none => [tree]
        | some (newRoot, tree) =>
          tree ::
            match splitNode tree root with
            | none => []
            | some (sibling, promoted, tree) =>
              let tree := installRoot tree root newRoot sibling promoted
              nonfullAllocs score tree.maxNodes tree (if score ≥ promoted then sibling else newRoot)

/-- A call of `insert_entry`. -/
structure EntryCall where
  tree : ZedisBtree
  score : Int
  midx : Nat

/-- The calls during the loop of `rebuild_btree`. -/
def rebuildCalls : List Nat → ZedisBtree → List EntryCall
  | [], _ => []
  | i :: rest, tree =>
    ⟨tree, (tree.members i).score, i⟩ ::
      match insertEntry tree (tree.members i).score i with
      | none => []
      | some (_, tree) => rebuildCalls rest tree

/-- The calls during `zedis_btree_add`. -/
def insertCalls (tree : ZedisBtree) (op : BtreeAdd) : List EntryCall :=
  if op.member.length = 0 ∨ op.member.length ≥ zedisBtreeMaxMember then []
  else
    match lookupMember tree op.member with
    | none => []
    | some (some existing) =>
      rebuildCalls (List.range tree.memberCount) { tree with
        members := rescored tree.members existing op.score
        nodes := fun _ => zeroNode
        root := none
        freeNode := 0 }
    | some none =>
      match allocMember tree op.score op.member with
      | none => []
      | some (midx, tree) => [⟨tree, op.score, midx⟩]

/-- Every call was given a node, and these are the nodes by which the pool has grown. -/
structure Granted (tree after : ZedisBtree) (allocs : List ZedisBtree) : Prop where
  count : after.freeNode = tree.freeNode + allocs.length
  each : ∀ caller ∈ allocs, ∃ idx next, allocNode caller = some (idx, next) ∧
    next.freeNode ≤ after.freeNode

section Granted

variable {tree middle after : ZedisBtree}

theorem allocNode_freeNode {idx : Nat} {next : ZedisBtree}
    (granted : allocNode tree = some (idx, next)) : next.freeNode = tree.freeNode + 1 := by
  unfold allocNode at granted
  split at granted
  · cases granted
  · cases granted
    rfl

theorem Granted.nil (same : after.freeNode = tree.freeNode) : Granted tree after [] :=
  ⟨same, List.forall_mem_nil _⟩

theorem Granted.cons {allocs : List ZedisBtree} {idx : Nat} {next : ZedisBtree}
    (granted : allocNode tree = some (idx, next)) (rest : Granted middle after allocs)
    (goes : middle.freeNode = next.freeNode) : Granted tree after (tree :: allocs) := by
  have one := allocNode_freeNode granted
  have count := rest.count
  refine ⟨?_, List.forall_mem_cons.mpr ⟨⟨idx, next, granted, ?_⟩, rest.each⟩⟩
  · rw [List.length_cons]
    omega
  · omega

/-- A split that returns a node took it from the pool. -/
theorem splitNode_alloc {idx sibling : Nat} {promoted : Int}
    (splits : splitNode tree idx = some (sibling, promoted, after)) :
    ∃ next, allocNode tree = some (sibling, next) ∧ after.freeNode = next.freeNode := by
  have moved : ∃ mid right, moveUpper tree idx mid right = some (sibling, promoted, after) := by
    unfold splitNode at splits
    split at splits
    · exact ⟨_, _, splits⟩
    · exact ⟨_, _, splits⟩
  obtain ⟨mid, right, moved⟩ := moved
  obtain ⟨⟨taken, next⟩, granted, same⟩ := Option.map_eq_some_iff.mp moved
  cases same
  exact ⟨next, granted, rfl⟩

/-- **A descent that returns `0` was given every node it asked for.** -/
theorem insertNonfull_granted (score : Int) (midx fuel : Nat) : ∀ (tree : ZedisBtree) (idx : Nat),
    insertNonfull score midx fuel tree idx = some (0, after) →
    Granted tree after (nonfullAllocs score fuel tree idx) := by
  induction fuel with
  | zero =>
    intro tree idx ends
    cases ends
  | succ fuel ih =>
    intro tree idx ends
    unfold insertNonfull at ends
    unfold nonfullAllocs
    by_cases leaf : (tree.nodes idx).isLeaf = true
    · simp only [leaf, if_true] at ends ⊢
      cases ends
      exact Granted.nil rfl
    · simp only [leaf, if_false, Bool.false_eq_true] at ends ⊢
      split at ends
      case isTrue full =>
        rw [if_pos full]
        cases splits : splitNode tree
            ((tree.nodes idx).slots (descendAt (tree.nodes idx) score)) with
        | none =>
          simp only [splits] at ends
          cases ends
        | some parts =>
          obtain ⟨sibling, promoted, next⟩ := parts
          simp only [splits] at ends ⊢
          obtain ⟨taken, granted, free⟩ := splitNode_alloc splits
          exact Granted.cons granted (ih _ _ ends) free
      case isFalse free =>
        rw [if_neg free]
        exact ih _ _ ends

/-- The same under a full root, for which two nodes are asked first. -/
theorem insertEntry_granted_full {score : Int} {midx root : Nat} (isRoot : tree.root = some root)
    (full : ¬ (tree.nodes root).count < btreeMaxKeys)
    (ends : insertEntry tree score midx = some (0, after)) :
    Granted tree after (entryAllocs tree score) := by
  simp only [insertEntry, isRoot, if_neg full] at ends
  simp only [entryAllocs, isRoot, if_neg full]
  cases granted : allocNode tree with
  | none =>
    -- the root is split all the same, and the result is a failure
    simp only [granted] at ends
    cases splits : splitNode tree root with
    | none =>
      simp only [splits] at ends
      cases ends
    | some parts =>
      simp only [splits] at ends
      cases ends
  | some taken =>
    obtain ⟨newRoot, next⟩ := taken
    simp only [granted] at ends ⊢
    cases splits : splitNode next root with
    | none =>
      simp only [splits] at ends
      cases ends
    | some parts =>
      obtain ⟨sibling, promoted, middle⟩ := parts
      simp only [splits] at ends ⊢
      obtain ⟨again, grantedAgain, free⟩ := splitNode_alloc splits
      generalize made : installRoot middle root newRoot sibling promoted = grown at ends ⊢
      have enters : insertNonfull score midx grown.maxNodes grown
          (if score ≥ promoted then sibling else newRoot) = some (0, after) := by
        split at ends
        case isTrue up =>
          rw [if_pos up]
          exact ends
        case isFalse down =>
          rw [if_neg down]
          exact ends
      have inner := insertNonfull_granted score midx _ _ _ enters
      have same : grown.freeNode = again.freeNode := made ▸ free
      exact Granted.cons granted (Granted.cons grantedAgain inner same) rfl

/-- **An insertion that returns `0` was given every node it asked for.** -/
theorem insertEntry_granted {score : Int} {midx : Nat}
    (ends : insertEntry tree score midx = some (0, after)) :
    Granted tree after (entryAllocs tree score) := by
  cases isRoot : tree.root with
  | none =>
    simp only [insertEntry, isRoot] at ends
    simp only [entryAllocs, isRoot]
    cases granted : allocNode tree with
    | none =>
      simp only [granted] at ends
      cases ends
    | some taken =>
      simp only [granted] at ends
      cases ends
      exact Granted.cons granted (Granted.nil rfl) rfl
  | some root =>
    by_cases free : (tree.nodes root).count < btreeMaxKeys
    · simp only [insertEntry, isRoot, if_pos free] at ends
      simp only [entryAllocs, isRoot, if_pos free]
      exact insertNonfull_granted score midx _ _ _ ends
    · exact insertEntry_granted_full isRoot free ends

end Granted

/-! ### The room of the pool -/

/-- A call that inserts into a tree of `n` entries: the pool has at most `2n - 1` nodes before it,
every node it asks for is within that bound, the first one of an empty tree apart, and it returns `0`
with one more entry in the tree. -/
structure Fits (call : EntryCall) (n : Nat) : Prop where
  entries : entryCount call.tree = some n
  pool : call.tree.freeNode ≤ 2 * n - 1
  allocs : ∀ caller ∈ entryAllocs call.tree call.score, ∃ idx next, allocNode caller = some (idx, next) ∧
    next.freeNode ≤ max 1 (2 * n - 1)
  ends : ∃ after, insertEntry call.tree call.score call.midx = some (0, after) ∧
    entryCount after = some (n + 1)

section Room

variable {tree : ZedisBtree} {t : ScoreTrees} {n : Nat}

theorem Stored.entryCount (stored : Stored tree t) (small : t.size ≤ tree.maxNodes) :
    entryCount tree = some t.entries.length := by
  cases t with
  | empty =>
    rw [BTree.entryCount, stored.1]
    rfl
  | root h t =>
    obtain ⟨root, isRoot, rooted, rfl, -⟩ := stored
    have high := (height_lt_size h (treeAt tree.nodes h root)).trans_le small
    rw [BTree.entryCount, isRoot]
    simp only
    rw [countEntries_eq h tree.maxNodes root high rooted.shape, membersAt_eq, List.length_map]
    rfl

theorem Built.length (built : Built tree t n) : t.entries.length = n := by
  rw [built.entries.length_eq, memberEntries, length_cells]

/-- **A tree of `n` members has at most `2n - 1` nodes.** -/
theorem Built.pool (built : Built tree t n) (sized : Sized tree) (le : n ≤ tree.maxMembers) :
    entryCount tree = some n ∧ tree.freeNode ≤ 2 * n - 1 := by
  have small := RootedTree.size_le t built.stored.filled
  rw [built.length] at small
  have nodes := sized.nodes
  rw [built.stored.entryCount (by omega), built.length, built.stored.freeNode]
  exact ⟨rfl, small⟩

/-- **The insertion of the next member fits.** -/
theorem Built.fits (built : Built tree t n) (sized : Sized tree) (below : n < tree.maxMembers) :
    Fits ⟨tree, (tree.members n).score, n⟩ n := by
  obtain ⟨entries, pool⟩ := built.pool sized below.le
  obtain ⟨after, ends, rest, builtAfter⟩ := built.insertEntry sized below
  have sizedAfter : Sized after := by
    rw [rest]
    exact ⟨sized.members, sized.nodes⟩
  have within : n + 1 ≤ after.maxMembers := by
    rw [rest]
    exact below
  -- the nodes after the insertion, counted by the entries before it
  have bound := RootedTree.size_insert_le Prod.fst (entryLe tree.members) t
    ((tree.members n).score, n) built.stored.filled
  rw [← builtAfter.stored.freeNode, built.length] at bound
  refine ⟨entries, pool, fun caller called => ?_, after, ends, (builtAfter.pool sizedAfter within).1⟩
  obtain ⟨idx, next, granted, le⟩ := (insertEntry_granted ends).each caller called
  exact ⟨idx, next, granted, le.trans bound⟩

/-- **The insertions of a rebuild fit**, one after the other. -/
theorem rebuildCalls_fit (k : Nat) : ∀ {n : Nat} {tree : ZedisBtree} {t : ScoreTrees},
    Built tree t n → Sized tree → n + k ≤ tree.maxMembers →
    ∀ call ∈ rebuildCalls (List.range' n k) tree, ∃ n, Fits call n := by
  induction k with
  | zero =>
    intro n tree t _ _ _ call called
    cases called
  | succ k ih =>
    intro n tree t built sized le
    have below : n < tree.maxMembers := by omega
    obtain ⟨after, ends, rest, builtAfter⟩ := built.insertEntry sized below
    rw [List.range'_succ, rebuildCalls]
    simp only [ends]
    refine List.forall_mem_cons.mpr ⟨⟨n, built.fits sized below⟩, ih builtAfter ?_ ?_⟩
    · rw [rest]
      exact ⟨sized.members, sized.nodes⟩
    · rw [rest]
      simp only
      omega

/-- **Every insertion of a call fits.** -/
theorem insertCalls_fit (inv : SetInv tree t) (op : BtreeAdd) :
    ∀ call ∈ insertCalls tree op, ∃ n, Fits call n := by
  unfold insertCalls
  by_cases bad : op.member.length = 0 ∨ op.member.length ≥ zedisBtreeMaxMember
  · rw [if_pos bad]
    exact List.forall_mem_nil _
  · rw [if_neg bad]
    rw [not_or, Nat.not_le] at bad
    rcases lookupMember_cases inv op.member with ⟨i, -, -, found⟩ | ⟨-, found⟩
    · simp only [found]
      rw [List.range_eq_range']
      refine rebuildCalls_fit tree.memberCount
        (Built.cleared { tree with members := rescored tree.members i op.score })
        ⟨inv.sized.members, inv.sized.nodes⟩ ?_
      rw [Nat.zero_add]
      exact inv.sized.members
    · by_cases full : tree.memberCount ≥ tree.maxMembers
      · simp only [found, allocMember, if_pos full]
        exact List.forall_mem_nil _
      · simp only [found, allocMember, if_neg full, if_pos bad.2, List.take_length]
        have room : tree.memberCount < tree.maxMembers := Nat.not_le.mp full
        have fits := (inv.appended ⟨op.member, op.score⟩).fits ⟨room, inv.sized.nodes⟩ room
        simp only [Function.update_self] at fits
        exact List.forall_mem_singleton.mpr ⟨_, fits⟩

/-- A call that is refused inserts nothing. -/
theorem insertCalls_refused (inv : SetInv tree t) {op : BtreeAdd}
    (refused : op.member.length = 0 ∨ op.member.length ≥ zedisBtreeMaxMember ∨
      (∀ i < tree.memberCount, (tree.members i).data ≠ op.member) ∧
        tree.memberCount = tree.maxMembers) : insertCalls tree op = [] := by
  unfold insertCalls
  by_cases bad : op.member.length = 0 ∨ op.member.length ≥ zedisBtreeMaxMember
  · rw [if_pos bad]
  · rw [if_neg bad]
    rw [← or_assoc] at refused
    obtain ⟨absent, full⟩ := refused.resolve_left bad
    rcases lookupMember_cases inv op.member with ⟨i, below, same, -⟩ | ⟨-, found⟩
    · exact absurd same (absent i below)
    · simp only [found, allocMember, if_pos full.ge]

end Room

/-- **The node pool never runs out.** In every reachable tree of `n` entries at most `2n - 1` nodes are
allocated; every `insert_entry` of the next `zedis_btree_add`, those of a rebuild among them, is given
all nodes it asks for, within that bound, and returns `0`; and the call returns, with a failure only
when it inserts nothing. -/
theorem node_pool_suffices (tree : ZedisBtree) (reach : Reachable tree) (op : BtreeAdd) :
    (∃ n, entryCount tree = some n ∧ tree.freeNode ≤ 2 * n - 1) ∧
      (∀ call ∈ insertCalls tree op, ∃ n, Fits call n) ∧
      ∃ rc after, zedisBtreeAdd tree op.score op.member = some (rc, after) ∧
        (rc = 0 ∨ insertCalls tree op = []) := by
  obtain ⟨t, inv⟩ := reach.inv
  obtain ⟨rc, after, t', ends, result, -⟩ := zedisBtreeAdd_cases inv op
  refine ⟨⟨_, inv.built.pool inv.sized inv.sized.members⟩, insertCalls_fit inv op, rc, after, ends,
    ?_⟩
  cases result with
  | refused refused => exact Or.inr (insertCalls_refused inv refused)
  | updated => exact Or.inl rfl
  | added => exact Or.inl rfl

/-- A member of four gets a new score: four insertions into the cleared pool, the last of which splits
the root. -/
theorem node_pool_suffices_rebuild : ∃ tree, Reachable tree ∧
    (insertCalls tree ⟨0, [97]⟩).map (fun call => (entryAllocs call.tree call.score).length) =
      [1, 0, 0, 2] ∧
    (∃ n, entryCount tree = some n ∧ tree.freeNode ≤ 2 * n - 1) ∧
      (∀ call ∈ insertCalls tree ⟨0, [97]⟩, ∃ n, Fits call n) ∧
      ∃ rc after, zedisBtreeAdd tree 0 [97] = some (rc, after) ∧
        (rc = 0 ∨ insertCalls tree ⟨0, [97]⟩ = []) := by
  have calls : ((sampleTree 8 [⟨3, [97]⟩, ⟨1, [98]⟩, ⟨2, [99]⟩, ⟨5, [100]⟩]).map fun tree =>
      (insertCalls tree ⟨0, [97]⟩).map fun call => (entryAllocs call.tree call.score).length) =
      some [1, 0, 0, 2] := by decide +kernel
  obtain ⟨tree, returned, allocs⟩ := Option.map_eq_some_iff.mp calls
  have reach := reachable_sampleTree returned
  exact ⟨tree, reach, allocs, node_pool_suffices tree reach ⟨0, [97]⟩⟩

end Zedis.BTree

/-
**The representation invariant of the node pool.**

`NodeOk` and `PoolOk` spell out what a reachable pool looks like, node by node: all leaves at one
depth, one to three keys in every node, no node reached twice, the leaf values a permutation of the
member indices, each leaf key the score of its member, each separator between the scores of the
children beside it. `pool_invariant` reads all of it off the search tree that the pool holds
(`SetInv`).
-/

import Zedis.BTree.Reach

namespace Zedis.BTree

open Zedis.Lib Zedis.Lib.LeafTree Zedis.Arena

/-- The scores under a node, from left to right. -/
def scoresAt (tree : ZedisBtree) (h idx : Nat) : List Int :=
  (membersAt tree.nodes h idx).map fun midx => (tree.members midx).score

/-- The nodes under `idx`, with the leaves at depth `h`. -/
def NodeOk (tree : ZedisBtree) : Nat → Nat → Prop
  | 0, idx =>
    let node := tree.nodes idx
    node.isLeaf = true ∧ (1 ≤ node.count ∧ node.count ≤ btreeMaxKeys) ∧
      ∀ i < node.count, node.keys i = (tree.members (node.slots i)).score
  | h + 1, idx =>
    let node := tree.nodes idx
    node.isLeaf = false ∧ (1 ≤ node.count ∧ node.count ≤ btreeMaxKeys) ∧
      (∀ i ≤ node.count, NodeOk tree h (node.slots i)) ∧
      ∀ i < node.count, (∀ s ∈ scoresAt tree h (node.slots i), s ≤ node.keys i) ∧
        ∀ s ∈ scoresAt tree h (node.slots (i + 1)), node.keys i ≤ s

/-- **The representation invariant** under a root with its leaves at depth `h`. -/
structure PoolOk (tree : ZedisBtree) (h root : Nat) : Prop where
  nodes : NodeOk tree h root
  paths : (nodesAt tree.nodes h root).Nodup
  values : (membersAt tree.nodes h root).Perm (List.range tree.memberCount)
  scores : (scoresAt tree h root).Pairwise (· ≤ ·)
  count : countEntries tree tree.maxNodes root = some tree.memberCount

section Invariant

variable {tree : ZedisBtree} {t : ScoreTrees}

/-- The fences of a sorted row lie between the tokens of the items beside them. -/
theorem between_of_sorted {node : BtreeNode} {item : Nat → List Int}
    (sorted : ((row node).weave item fun k => [k]).Pairwise (· ≤ ·)) {i : Nat}
    (below : i < node.count) : (∀ s ∈ item (node.slots i), s ≤ node.keys i) ∧
      ∀ s ∈ item (node.slots (i + 1)), node.keys i ≤ s := by
  unfold Fenced.weave row cells at sorted
  rw [List.flatMap_map] at sorted
  obtain ⟨blocks, -, ends⟩ := List.pairwise_append.mp sorted
  obtain ⟨within, across⟩ := List.pairwise_flatMap.mp blocks
  have fence : node.keys i ∈ item (node.slots i) ++ [node.keys i] :=
    List.mem_append_right _ (List.mem_singleton.mpr rfl)
  refine ⟨fun s under => ?_, fun s under => ?_⟩
  · have block := within i (List.mem_range.mpr below)
    exact (List.pairwise_append.mp block).2.2 s under _ (List.mem_singleton.mpr rfl)
  · by_cases final : i + 1 = node.count
    · rw [final] at under
      exact ends _ (List.mem_flatMap.mpr ⟨i, List.mem_range.mpr below, fence⟩) s under
    · rw [List.pairwise_iff_getElem] at across
      have apart := across i (i + 1) (by rw [List.length_range]; omega)
        (by rw [List.length_range]; omega) (Nat.lt_succ_self i)
      simp only [List.getElem_range] at apart
      exact apart _ fence s (List.mem_append_left _ under)

/-- **A filled tree with sorted tokens is a correct pool of nodes.** -/
theorem nodeOk_of_tree (h : Nat) : ∀ idx, ShapeAt tree.nodes h idx →
    Filled h (treeAt tree.nodes h idx) →
    (tokens Prod.fst h (treeAt tree.nodes h idx)).Pairwise (· ≤ ·) →
    (∀ e ∈ entries h (treeAt tree.nodes h idx), e.1 = (tree.members e.2).score) →
    NodeOk tree h idx := by
  induction h with
  | zero =>
    intro idx shape filled _ scored
    have bounds : 1 ≤ (leafEntries (tree.nodes idx)).length ∧
        (leafEntries (tree.nodes idx)).length ≤ 3 := filled
    rw [leafEntries, length_cells] at bounds
    exact ⟨shape, bounds, fun i below => scored _ (mem_cells.mpr ⟨i, below, rfl⟩)⟩
  | succ h ih =>
    intro idx shape filled sorted scored
    obtain ⟨inner, shapes⟩ := shape
    generalize node : tree.nodes idx = parent at inner shapes
    have child : ∀ i ≤ parent.count, parent.slots i ∈ (row parent).items := fun i le => by
      rw [items_row, mem_cells]
      exact ⟨i, Nat.lt_succ_of_le le, rfl⟩
    have woven : ((row parent).weave (fun c => tokens Prod.fst h (treeAt tree.nodes h c))
        fun k => [k]).Pairwise (· ≤ ·) := by
      rw [← Fenced.weave_map (tokens Prod.fst h) _ (treeAt tree.nodes h), ← node]
      exact sorted
    have scoredUnder : ∀ i ≤ parent.count, ∀ e ∈ entries h (treeAt tree.nodes h (parent.slots i)),
        e.1 = (tree.members e.2).score := by
      intro i le e member
      refine scored e (List.Sublist.subset ?_ member)
      rw [treeAt, node]
      have part := Fenced.item_sublist (fun c => entries h (treeAt tree.nodes h c)) (fun _ => [])
        (child i le)
      rwa [← Fenced.weave_map (entries h) _ (treeAt tree.nodes h)] at part
    have scoresUnder : ∀ i ≤ parent.count, ∀ s ∈ scoresAt tree h (parent.slots i),
        s ∈ tokens Prod.fst h (treeAt tree.nodes h (parent.slots i)) := by
      intro i le s member
      rw [scoresAt, membersAt_eq, List.map_map] at member
      obtain ⟨e, present, rfl⟩ := List.mem_map.mp member
      rw [Function.comp_apply, ← scoredUnder i le e present]
      exact mem_tokens_of_entries h _ e present
    have kids : 1 ≤ parent.count ∧ parent.count ≤ 3 := by
      have bounds : 1 ≤ ((row (tree.nodes idx)).map (treeAt tree.nodes h)).kids.length ∧
          ((row (tree.nodes idx)).map (treeAt tree.nodes h)).kids.length ≤ 3 :=
        ⟨filled.1, filled.2.1⟩
      simpa only [Fenced.map, row, List.length_map, length_cells, node] using bounds
    have filledUnder : ∀ i ≤ parent.count, Filled h (treeAt tree.nodes h (parent.slots i)) := by
      intro i le
      refine filled.2.2 _ ?_
      rw [treeAt, node, Fenced.items_map]
      exact List.mem_map_of_mem (child i le)
    rw [NodeOk, node]
    refine ⟨inner, kids, fun i le => ?_, fun i below => ?_⟩
    · have part := Fenced.item_sublist (fun c => tokens Prod.fst h (treeAt tree.nodes h c))
        (fun k => [k]) (child i le)
      exact ih _ (shapes _ (child i le)) (filledUnder i le) (woven.sublist part) (scoredUnder i le)
    · have between := between_of_sorted woven below
      exact ⟨fun s under => between.1 s (scoresUnder i below.le s under),
        fun s under => between.2 s (scoresUnder (i + 1) below s under)⟩

/-- **The representation invariant of every reachable tree.** -/
theorem pool_invariant (tree : ZedisBtree) (reach : Reachable tree) :
    match tree.root with
    | none => tree.memberCount = 0
    | some root => ∃ h, PoolOk tree h root := by
  obtain ⟨t, inv⟩ := reach.inv
  have small := inv.size_le
  obtain ⟨stored, sorted, perm⟩ := inv.built
  have scored : ∀ e ∈ t.entries, e.1 = (tree.members e.2).score := fun e member =>
    (mem_memberEntries.mp (perm.mem_iff.mp member)).2
  have values : (t.entries.map Prod.snd).Perm (List.range tree.memberCount) := by
    have mapped := perm.map Prod.snd
    rwa [memberEntries, map_cells, cells, List.map_id'] at mapped
  cases t with
  | empty =>
    rw [stored.1]
    have length := values.length_eq
    rw [List.length_range] at length
    exact length.symm
  | root h t =>
    obtain ⟨root, isRoot, rooted, rfl, -⟩ := stored
    have high := (height_lt_size h (treeAt tree.nodes h root)).trans_le small
    rw [RootedTree.entries, ← membersAt_eq] at values
    rw [isRoot]
    refine ⟨h, nodeOk_of_tree h root rooted.shape rooted.filled sorted scored, rooted.nodup, values,
      ?_, ?_⟩
    · have scores : scoresAt tree h root = (entries h (treeAt tree.nodes h root)).map Prod.fst := by
        rw [scoresAt, membersAt_eq, List.map_map]
        exact List.map_congr_left fun e member => (scored e member).symm
      rw [scores]
      exact List.Pairwise.sublist (keys_sublist_tokens h _) sorted
    · rw [countEntries_eq h tree.maxNodes root high rooted.shape, values.length_eq,
        List.length_range]

end Invariant

/-- Four members under a root with two leaves, after one of them got a new score. -/
theorem pool_invariant_rescored : ∃ tree root h, Reachable tree ∧ tree.root = some root ∧
    PoolOk tree h root := by
  have roots : ((sampleTree 8 [⟨3, [97]⟩, ⟨1, [98]⟩, ⟨2, [99]⟩, ⟨5, [100]⟩, ⟨0, [97]⟩]).bind
      fun tree => tree.root) = some 1 := by decide +kernel
  obtain ⟨tree, returned, isRoot⟩ := Option.bind_eq_some_iff.mp roots
  have reach := reachable_sampleTree returned
  have law := pool_invariant tree reach
  rw [isRoot] at law
  obtain ⟨h, ok⟩ := law
  exact ⟨tree, 1, h, reach, isRoot, ok⟩

end Zedis.BTree

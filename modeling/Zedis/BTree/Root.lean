/-
**`insert_entry` refines insertion into a tree of any height.**

`Stored tree t`: the pool holds `t` under its root, on all the nodes allocated so far.
`insertEntry_refines`: with room for the nodes of the new tree, `insert_entry` returns `0` and the
pool then holds `RootedTree.insert` of the entry. A full root is split into its halves under a new
root (`splitRoot_refines`); the code then enters the right half directly, or the new root.
-/

import Zedis.BTree.Insert
import Zedis.Lib.RootedTree

namespace Zedis.BTree

open Zedis.Lib Zedis.Lib.LeafTree

/-- Trees of scores and member indices, of any height. -/
abbrev ScoreTrees : Type := RootedTree Int (Int × Nat)

/-- The pool holds the tree, on all its allocated nodes. -/
def Stored (tree : ZedisBtree) : ScoreTrees → Prop
  | .empty => tree.root = none ∧ tree.freeNode = 0
  | .root h t => ∃ root, tree.root = some root ∧ Rooted tree h root ∧
      treeAt tree.nodes h root = t ∧ (nodesAt tree.nodes h root).Perm (List.range tree.freeNode)

theorem Stored.freeNode {tree : ZedisBtree} {t : ScoreTrees} (stored : Stored tree t) :
    tree.freeNode = t.size := by
  cases t with
  | empty => exact stored.2
  | root h t =>
    obtain ⟨root, -, -, rfl, ids⟩ := stored
    have length := ids.length_eq
    rw [length_nodesAt, List.length_range] at length
    exact length.symm

theorem Stored.filled {tree : ZedisBtree} {t : ScoreTrees} (stored : Stored tree t) : t.Filled := by
  cases t with
  | empty => trivial
  | root h t =>
    obtain ⟨root, -, rooted, rfl, -⟩ := stored
    exact rooted.filled

/-- The members do not matter. -/
theorem Stored.congr {tree tree' : ZedisBtree} {t : ScoreTrees} (stored : Stored tree t)
    (nodes : tree'.nodes = tree.nodes) (root : tree'.root = tree.root)
    (free : tree'.freeNode = tree.freeNode) : Stored tree' t := by
  cases t with
  | empty => exact ⟨root.trans stored.1, free.trans stored.2⟩
  | root h t =>
    obtain ⟨idx, isRoot, rooted, treeEq, ids⟩ := stored
    refine ⟨idx, root.trans isRoot, ⟨?_, ?_, ?_, ?_⟩, ?_, ?_⟩
    · exact nodes ▸ rooted.shape
    · exact nodes ▸ rooted.nodup
    · exact nodes ▸ free ▸ rooted.old
    · exact nodes ▸ rooted.filled
    · exact nodes ▸ treeEq
    · exact nodes ▸ free ▸ ids

/-! ### A new root -/

section NewRoot

variable {tree : ZedisBtree} {h root : Nat} {left right : ScoreTree h} {promoted : Int}

/-- The two nodes that a root split takes, the new root in place. -/
structure RootSplit (tree after : ZedisBtree) (h root : Nat) (left right : ScoreTree h)
    (promoted : Int) : Prop where
  rest : after = { tree with
    nodes := after.nodes, root := some tree.freeNode, freeNode := tree.freeNode + 2 }
  parent : row (after.nodes tree.freeNode) = ⟨[(root, promoted)], tree.freeNode + 1⟩
  rooted : Rooted after (h + 1) tree.freeNode
  leftTree : treeAt after.nodes h root = left
  rightTree : treeAt after.nodes h (tree.freeNode + 1) = right
  ids : (nodesAt after.nodes (h + 1) tree.freeNode).Perm
    (nodesAt tree.nodes h root ++ [tree.freeNode, tree.freeNode + 1])

theorem row_installRoot (tree : ZedisBtree) (root newRoot sibling : Nat) (promoted : Int) :
    row ((installRoot tree root newRoot sibling promoted).nodes newRoot) =
      ⟨[(root, promoted)], sibling⟩ := by
  simp [installRoot, row, cells, Function.update]

/-- **A full root is split under a new one.** -/
theorem splitRoot_refines (rooted : Rooted tree h root) (room : tree.freeNode + 1 < tree.maxNodes)
    (halves : split Prod.fst h (treeAt tree.nodes h root) = some (left, promoted, right)) :
    ∃ after, splitNode { tree with freeNode := tree.freeNode + 1 } root =
        some (tree.freeNode + 1, promoted, after) ∧
      RootSplit tree (installRoot after root tree.freeNode (tree.freeNode + 1) promoted) h root left
        right promoted := by
  have rootedNext : Rooted { tree with freeNode := tree.freeNode + 1 } h root :=
    ⟨rooted.shape, rooted.nodup, fun j inside => (rooted.old j inside).trans (Nat.lt_succ_self _),
      rooted.filled⟩
  obtain ⟨after, ends, halved⟩ := splitNode_refines rootedNext room halves
  refine ⟨after, ends, ?_⟩
  have parent := row_installRoot after root tree.freeNode (tree.freeNode + 1) promoted
  generalize made : installRoot after root tree.freeNode (tree.freeNode + 1) promoted = next at parent ⊢
  have other : ∀ j, j ≠ tree.freeNode → next.nodes j = after.nodes j := fun j differs => by
    rw [← made]
    exact Function.update_of_ne differs _ _
  -- the halves do not use the new root
  have halfIds : ∀ j, j ∈ nodesAt after.nodes h root ++ nodesAt after.nodes h (tree.freeNode + 1) →
      j ≠ tree.freeNode := by
    intro j inside
    rcases List.mem_append.mp (halved.ids.mem_iff.mp inside) with old | new
    · exact (rooted.old j old).ne
    · rw [List.mem_singleton.mp new]
      exact Nat.succ_ne_self _
  have leftKept := treeAt_congr h root fun j inside =>
    other j (halfIds j (List.mem_append_left _ inside))
  have rightKept := treeAt_congr h (tree.freeNode + 1) fun j inside =>
    other j (halfIds j (List.mem_append_right _ inside))
  have ids : (nodesAt next.nodes (h + 1) tree.freeNode).Perm
      (nodesAt tree.nodes h root ++ [tree.freeNode, tree.freeNode + 1]) := by
    rw [nodesAt_pair parent, leftKept.2.1, rightKept.2.1]
    refine (halved.ids.cons tree.freeNode).trans ?_
    exact List.perm_middle.symm
  have below : ∀ j ∈ nodesAt tree.nodes h root, j < tree.freeNode := rooted.old
  have inner : (next.nodes tree.freeNode).isLeaf = false := by
    rw [← made]
    simp only [installRoot, Function.update_self, zeroNode]
  refine ⟨?_, parent, ⟨?_, ?_, ?_, ?_⟩, ?_, ?_, ids⟩
  · rw [← made, installRoot, halved.rest]
  · exact shapeAt_pair parent inner (leftKept.2.2 halved.leftShape) (rightKept.2.2 halved.rightShape)
  · rw [ids.nodup_iff, List.nodup_append]
    refine ⟨rooted.nodup, by simp, fun j inside k new same => ?_⟩
    have := below j inside
    simp only [List.mem_cons, List.not_mem_nil, or_false] at new
    omega
  · intro j inside
    have freeNext : next.freeNode = tree.freeNode + 2 := by rw [← made, installRoot, halved.rest]
    rcases List.mem_append.mp (ids.mem_iff.mp inside) with old | new
    · have := below j old
      omega
    · simp only [List.mem_cons, List.not_mem_nil, or_false] at new
      omega
  · obtain ⟨leftFilled, rightFilled⟩ := filled_split halves rooted.filled
    rw [treeAt_pair parent, leftKept.1, rightKept.1, halved.leftTree, halved.rightTree]
    refine ⟨Nat.le_refl 1, show 1 ≤ 3 by decide, fun t member => ?_⟩
    have pair : t ∈ [left, right] := member
    simp only [List.mem_cons, List.not_mem_nil, or_false] at pair
    rcases pair with rfl | rfl
    · exact leftFilled
    · exact rightFilled
  · rw [leftKept.1, halved.leftTree]
  · rw [rightKept.1]
    exact halved.rightTree

end NewRoot

/-! ### An insertion -/

section Entry

variable {tree : ZedisBtree} {score : Int} {midx : Nat}

/-- The allocated nodes after a growth under the root. -/
theorem Grown.all {after : ZedisBtree} {h root : Nat} (grown : Grown tree after h root)
    (ids : (nodesAt tree.nodes h root).Perm (List.range tree.freeNode)) :
    (nodesAt after.nodes h root).Perm (List.range after.freeNode) := by
  refine grown.ids.trans ((ids.append_right _).trans ?_)
  have joined : List.range' 0 tree.freeNode ++ List.range' (0 + tree.freeNode)
      (after.freeNode - tree.freeNode) = _ := List.range'_append_1
  rw [Nat.zero_add, Nat.add_sub_cancel' grown.free] at joined
  rw [List.range_eq_range', List.range_eq_range', joined]

/-- The first entry. -/
theorem insertEntry_empty (stored : Stored tree .empty) (room : 0 < tree.maxNodes) :
    ∃ after, insertEntry tree score midx = some (0, after) ∧
      after = { tree with nodes := after.nodes, root := after.root, freeNode := after.freeNode } ∧
      Stored after (.root 0 [(score, midx)]) := by
  obtain ⟨noRoot, free⟩ := stored
  refine ⟨{ tree with
    nodes := Function.update tree.nodes 0 ⟨Function.update (tree.nodes 0).keys 0 score,
      Function.update (tree.nodes 0).slots 0 midx, true, 1⟩
    root := some 0
    freeNode := 1 }, ?_, rfl, 0, rfl, ⟨?_, ?_, ?_, ?_⟩, ?_, ?_⟩
  · simp only [insertEntry, noRoot, allocNode, free, if_neg (Nat.not_le.mpr room)]
  · simp only [ShapeAt, Function.update_self]
  · exact List.nodup_singleton 0
  · intro j inside
    rw [List.mem_singleton.mp inside]
    exact Nat.zero_lt_one
  · change 1 ≤ (leafEntries _).length ∧ (leafEntries _).length ≤ 3
    simp [leafEntries]
  · change leafEntries _ = _
    simp [leafEntries, cells]
  · exact List.Perm.refl _

/-- An entry under a root that is not full. -/
theorem insertEntry_notFull {h : Nat} {t : ScoreTree h} (stored : Stored tree (.root h t))
    (free : split Prod.fst h t = none)
    (room : size h (ins Prod.fst (entryLe tree.members) h t (score, midx)) ≤ tree.maxNodes) :
    ∃ after, insertEntry tree score midx = some (0, after) ∧
      after = { tree with nodes := after.nodes, root := after.root, freeNode := after.freeNode } ∧
      Stored after (.root h (ins Prod.fst (entryLe tree.members) h t (score, midx))) := by
  have count : tree.freeNode = size h t := stored.freeNode
  obtain ⟨root, isRoot, rooted, rfl, ids⟩ := stored
  have grows := size_le_ins Prod.fst (entryLe tree.members) h (treeAt tree.nodes h root) (score, midx)
  have high := height_lt_size h (treeAt tree.nodes h root)
  obtain ⟨after, ends, grown, treeEq⟩ := insertNonfull_refines score midx h tree.maxNodes tree root
    (by omega) rooted free (by omega)
  refine ⟨after, ?_, ?_, root, ?_, ?_, treeEq, grown.all ids⟩
  · simp only [insertEntry, isRoot, if_pos ((count_lt_iff rooted).mpr free)]
    exact ends
  · rw [grown.rest]
  · rw [grown.rest, isRoot]
  · exact grown.rooted rooted (treeEq ▸ ins_filled h _ _ rooted.filled free)

/-- A full root is split, and the insertion enters the right half or the new root. -/
theorem insertEntry_splits (score : Int) (midx : Nat) {h root : Nat} (isRoot : tree.root = some root)
    (rooted : Rooted tree h root) (room : tree.freeNode + 1 < tree.maxNodes)
    {left right : ScoreTree h} {promoted : Int}
    (halves : split Prod.fst h (treeAt tree.nodes h root) = some (left, promoted, right)) :
    ∃ next, RootSplit tree next h root left right promoted ∧ insertEntry tree score midx =
      insertNonfull score midx tree.maxNodes next
        (if score ≥ promoted then tree.freeNode + 1 else tree.freeNode) := by
  have full : ¬ (tree.nodes root).count < btreeMaxKeys := fun less => by
    rw [(count_lt_iff rooted).mp less] at halves
    cases halves
  obtain ⟨after, ends, splits⟩ := splitRoot_refines rooted room halves
  refine ⟨_, splits, ?_⟩
  simp only [isRoot] at ends
  have sameMax : (installRoot after root tree.freeNode (tree.freeNode + 1) promoted).maxNodes =
      tree.maxNodes := by rw [splits.rest]
  simp only [insertEntry, isRoot, if_neg full, allocNode,
    if_neg (Nat.not_le.mpr (show tree.freeNode < tree.maxNodes by omega)), ends, sameMax]
  split
  · rfl
  · rfl

section FullRoot

variable {next : ZedisBtree} {h root : Nat} {left right : ScoreTree h} {promoted : Int}

theorem RootSplit.counts (splits : RootSplit tree next h root left right promoted) :
    next.freeNode = tree.freeNode + 2 ∧ next.maxNodes = tree.maxNodes ∧
      next.members = tree.members := by
  rw [splits.rest]
  exact ⟨rfl, rfl, rfl⟩

/-- A score not below the separator goes to the right half, in its hole. -/
theorem RootSplit.insert_right (splits : RootSplit tree next h root left right promoted)
    (halves : split Prod.fst h (treeAt tree.nodes h root) = some (left, promoted, right))
    (up : promoted ≤ score) (count : tree.freeNode = size h (treeAt tree.nodes h root))
    (room : size (h + 1) (ins Prod.fst (entryLe tree.members) (h + 1)
      (.single (treeAt tree.nodes h root)) (score, midx)) ≤ tree.maxNodes) :
    ∃ after, insertNonfull score midx tree.maxNodes next (tree.freeNode + 1) = some (0, after) ∧
      Grown next after (h + 1) tree.freeNode ∧ treeAt after.nodes (h + 1) tree.freeNode =
        ins Prod.fst (entryLe tree.members) (h + 1) (.single (treeAt tree.nodes h root))
          (score, midx) := by
  obtain ⟨nextFree, nextMax, nextMembers⟩ := splits.counts
  have parts := size_split halves
  have two := RootedTree.size_ins_single (entryLe tree.members) (score, midx) halves
  have high := height_lt_size h left
  have routed := RootedTree.route_single (s := score) halves
  rw [if_pos up] at routed
  have inserted := ins_of_route (entryLe tree.members) (score, midx) routed
  have parent : row (next.nodes tree.freeNode) =
      ((⟨[], none⟩ : Hole Int Nat).pushLeft root promoted).fill (.single (tree.freeNode + 1)) :=
    splits.parent
  have sizes : size (h + 1) (ins Prod.fst (entryLe tree.members) (h + 1)
      (.single (treeAt tree.nodes h root)) (score, midx)) = 1 + (size h (ins Prod.fst
        (entryLe tree.members) h right (score, midx)) + size h left) := by
    rw [inserted, size_fill]
    rfl
  obtain ⟨after, ends, grown, treeEq⟩ := insertNonfull_refines score midx h tree.maxNodes next
    (tree.freeNode + 1) (by omega) (splits.rooted.child parent)
    (by rw [splits.rightTree]; exact (split_split halves).2)
    (by rw [nextMembers, splits.rightTree, nextFree, nextMax]; omega)
  obtain ⟨grownUp, whole⟩ := grown.under splits.rooted parent
  refine ⟨after, ends, grownUp, ?_⟩
  rw [whole, treeEq, inserted, nextMembers, splits.rightTree, Hole.map_pushLeft, splits.leftTree]
  rfl

/-- A score below the separator goes to the new root, whose separator sends it to the left half. -/
theorem RootSplit.insert_left (splits : RootSplit tree next h root left right promoted)
    (halves : split Prod.fst h (treeAt tree.nodes h root) = some (left, promoted, right))
    (down : ¬ promoted ≤ score) (count : tree.freeNode = size h (treeAt tree.nodes h root))
    (room : size (h + 1) (ins Prod.fst (entryLe tree.members) (h + 1)
      (.single (treeAt tree.nodes h root)) (score, midx)) ≤ tree.maxNodes) :
    ∃ after, insertNonfull score midx tree.maxNodes next tree.freeNode = some (0, after) ∧
      Grown next after (h + 1) tree.freeNode ∧ treeAt after.nodes (h + 1) tree.freeNode =
        ins Prod.fst (entryLe tree.members) (h + 1) (.single (treeAt tree.nodes h root))
          (score, midx) := by
  obtain ⟨nextFree, nextMax, nextMembers⟩ := splits.counts
  have parts := size_split halves
  have two := RootedTree.size_ins_single (entryLe tree.members) (score, midx) halves
  have high := height_lt_size h left
  have routed := RootedTree.route_single (s := score) halves
  rw [if_neg down] at routed
  have inserted := ins_of_route (entryLe tree.members) (score, midx) routed
  have nextTree : treeAt next.nodes (h + 1) tree.freeNode =
      (⟨[(left, promoted)], right⟩ : Fenced Int (ScoreTree h)) := by
    rw [treeAt_pair splits.parent, splits.leftTree, splits.rightTree]
  have again : Fenced.route (split Prod.fst h) score
      (⟨[(left, promoted)], right⟩ : Fenced Int (ScoreTree h)) =
      (left, (⟨[], none⟩ : Hole Int (ScoreTree h)).pushRight promoted right) := by
    have stays : ¬ promoted < score := by omega
    simp [Fenced.route, Fenced.seek, stays, (split_split halves).1, Hole.pushRight, Fenced.single]
  have same : ins Prod.fst (entryLe tree.members) (h + 1)
      (⟨[(left, promoted)], right⟩ : Fenced Int (ScoreTree h)) (score, midx) =
      ins Prod.fst (entryLe tree.members) (h + 1) (.single (treeAt tree.nodes h root))
        (score, midx) := (ins_of_route _ (score, midx) again).trans inserted.symm
  have sizes : size (h + 1) (⟨[(left, promoted)], right⟩ : Fenced Int (ScoreTree h)) =
      1 + (size h left + size h right) := by
    simp [size, Fenced.items]
  obtain ⟨after, ends, grown, treeEq⟩ := insertNonfull_refines score midx (h + 1) tree.maxNodes
    next tree.freeNode (by omega) splits.rooted (by rw [nextTree]; rfl)
    (by rw [nextMembers, nextTree, same, nextFree, nextMax, sizes]; omega)
  refine ⟨after, ends, grown, ?_⟩
  rw [treeEq, nextMembers, nextTree, same]

/-- An entry under a full root. -/
theorem insertEntry_full {t : ScoreTree h} (stored : Stored tree (.root h t))
    (halves : split Prod.fst h t = some (left, promoted, right))
    (room : size (h + 1) (ins Prod.fst (entryLe tree.members) (h + 1) (.single t) (score, midx)) ≤
      tree.maxNodes) :
    ∃ after, insertEntry tree score midx = some (0, after) ∧
      after = { tree with nodes := after.nodes, root := after.root, freeNode := after.freeNode } ∧
      Stored after
        (.root (h + 1) (ins Prod.fst (entryLe tree.members) (h + 1) (.single t) (score, midx))) := by
  have count : tree.freeNode = size h t := stored.freeNode
  obtain ⟨root, isRoot, rooted, rfl, ids⟩ := stored
  have two := RootedTree.size_ins_single (entryLe tree.members) (score, midx) halves
  obtain ⟨next, splits, starts⟩ := insertEntry_splits score midx isRoot rooted (by omega) halves
  have nextIds : (nodesAt next.nodes (h + 1) tree.freeNode).Perm (List.range next.freeNode) := by
    rw [splits.counts.1, List.range_succ, List.range_succ, List.append_assoc]
    exact splits.ids.trans (ids.append_right _)
  obtain ⟨after, ends, grown, treeEq⟩ : ∃ after, insertEntry tree score midx = some (0, after) ∧
      Grown next after (h + 1) tree.freeNode ∧ treeAt after.nodes (h + 1) tree.freeNode =
        ins Prod.fst (entryLe tree.members) (h + 1) (.single (treeAt tree.nodes h root))
          (score, midx) := by
    by_cases up : promoted ≤ score
    · rw [starts, if_pos (show score ≥ promoted from up)]
      exact splits.insert_right halves up count room
    · rw [starts, if_neg (show ¬ score ≥ promoted from up)]
      exact splits.insert_left halves up count room
  have filled : (RootedTree.insert Prod.fst (entryLe tree.members)
      (.root h (treeAt tree.nodes h root)) (score, midx)).Filled :=
    RootedTree.insert_filled _ _ _ _ rooted.filled
  simp only [RootedTree.insert, halves] at filled
  refine ⟨after, ends, ?_, tree.freeNode, ?_, grown.rooted splits.rooted ?_, treeEq,
    grown.all nextIds⟩
  · rw [grown.rest, splits.rest]
  · rw [grown.rest, splits.rest]
  · rw [treeEq]
    exact filled

end FullRoot

/-- **`insert_entry` inserts into the tree.** -/
theorem insertEntry_refines {t : ScoreTrees} (stored : Stored tree t) (score : Int) (midx : Nat)
    (room : (t.insert Prod.fst (entryLe tree.members) (score, midx)).size ≤ tree.maxNodes) :
    ∃ after, insertEntry tree score midx = some (0, after) ∧
      after = { tree with nodes := after.nodes, root := after.root, freeNode := after.freeNode } ∧
      Stored after (t.insert Prod.fst (entryLe tree.members) (score, midx)) := by
  cases t with
  | empty => exact insertEntry_empty stored room
  | root h t =>
    simp only [RootedTree.insert] at room ⊢
    cases halves : split Prod.fst h t with
    | none =>
      rw [halves] at room
      exact insertEntry_notFull stored halves room
    | some parts =>
      rw [halves] at room
      exact insertEntry_full stored halves room

end Entry

end Zedis.BTree

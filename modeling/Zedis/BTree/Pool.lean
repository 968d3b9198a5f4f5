/-
**The node pool as a tree.**

`treeAt nodes h idx` is the tree of height `h` that stands in the pool under the index `idx`,
`ShapeAt` says that its nodes are leaves at depth `h` and inner nodes above, and `nodesAt` lists the
index of a node once for every path that leads to it. A change of the pool outside these indices
changes nothing (`treeAt_congr`), and a change under one child replaces that child (`under_hole`).

The three steps of an insertion, seen on the tree: a leaf takes an entry (`leafEntries_insert`), a
full node is split in its halves (`splitNode_refines`), and the parent takes the new half next to
the old one (`row_adoptAt`).
-/

import Zedis.BTree.Model
import Zedis.Lib.LeafTree

namespace Zedis.BTree

open Zedis.Lib Zedis.Lib.LeafTree

/-- The children and the separators of an inner node. -/
def row (node : BtreeNode) : Fenced Int Nat :=
  ⟨cells (fun i => (node.slots i, node.keys i)) node.count, node.slots node.count⟩

/-- The entries of a leaf: scores and member indices. -/
def leafEntries (node : BtreeNode) : List (Int × Nat) :=
  cells (fun i => (node.keys i, node.slots i)) node.count

/-- Trees of scores and member indices. -/
abbrev ScoreTree : Nat → Type := LeafTree Int (Int × Nat)

/-- The tree under an index. -/
def treeAt (nodes : Nat → BtreeNode) : (h : Nat) → Nat → ScoreTree h
  | 0, idx => leafEntries (nodes idx)
  | h + 1, idx => (row (nodes idx)).map (treeAt nodes h)

/-- Leaves at depth `h`, and inner nodes above. -/
def ShapeAt (nodes : Nat → BtreeNode) : Nat → Nat → Prop
  | 0, idx => (nodes idx).isLeaf = true
  | h + 1, idx => (nodes idx).isLeaf = false ∧ ∀ child ∈ (row (nodes idx)).items, ShapeAt nodes h child

/-- The nodes under an index, one for every path. -/
def nodesAt (nodes : Nat → BtreeNode) : Nat → Nat → List Nat
  | 0, idx => [idx]
  | h + 1, idx => idx :: (row (nodes idx)).items.flatMap (nodesAt nodes h)

/-- The order of the entries: by score, then by the bytes of the member. -/
def entryLe (members : Nat → BtreeMember) (a b : Int × Nat) : Prop :=
  scoreMemberCmp a.1 (members a.2) b.1 (members b.2).data ≤ 0

instance (members : Nat → BtreeMember) : DecidableRel (entryLe members) := fun a b =>
  inferInstanceAs (Decidable (scoreMemberCmp a.1 (members a.2) b.1 (members b.2).data ≤ 0))

theorem items_row (node : BtreeNode) : (row node).items = cells node.slots (node.count + 1) := by
  simp only [row, Fenced.items, map_cells, cells_succ]

theorem self_mem_nodesAt (nodes : Nat → BtreeNode) (h idx : Nat) : idx ∈ nodesAt nodes h idx := by
  cases h with
  | zero => exact List.mem_singleton.mpr rfl
  | succ h => exact List.mem_cons_self

/-- **There are as many nodes as the tree has.** -/
theorem length_nodesAt (nodes : Nat → BtreeNode) (h : Nat) : ∀ idx,
    (nodesAt nodes h idx).length = size h (treeAt nodes h idx) := by
  induction h with
  | zero =>
    intro idx
    rfl
  | succ h ih =>
    intro idx
    have sum : ((row (nodes idx)).items.flatMap (nodesAt nodes h)).length =
        (((row (nodes idx)).map (treeAt nodes h)).items.map (size h)).sum := by
      rw [List.length_flatMap, Fenced.items_map, List.map_map]
      exact congrArg List.sum (List.map_congr_left fun child _ => ih child)
    rw [nodesAt, List.length_cons, sum]
    exact Nat.add_comm _ _

/-! ### Changes of the pool -/

section Frame

variable {nodes nodes' : Nat → BtreeNode}

/-- **A subtree does not depend on the rest of the pool.** -/
theorem treeAt_congr (h : Nat) : ∀ idx, (∀ j ∈ nodesAt nodes h idx, nodes' j = nodes j) →
    treeAt nodes' h idx = treeAt nodes h idx ∧ nodesAt nodes' h idx = nodesAt nodes h idx ∧
      (ShapeAt nodes h idx → ShapeAt nodes' h idx) := by
  induction h with
  | zero =>
    intro idx same
    have here := same idx (List.mem_singleton.mpr rfl)
    refine ⟨?_, rfl, fun shape => ?_⟩
    · change leafEntries (nodes' idx) = leafEntries (nodes idx)
      rw [here]
    · simp only [ShapeAt, here]
      exact shape
  | succ h ih =>
    intro idx same
    have here := same idx List.mem_cons_self
    have below : ∀ child ∈ (row (nodes idx)).items, ∀ j ∈ nodesAt nodes h child,
        nodes' j = nodes j := fun child member j inChild =>
      same j (List.mem_cons_of_mem _ (List.mem_flatMap.mpr ⟨child, member, inChild⟩))
    refine ⟨?_, ?_, fun shape => ⟨here ▸ shape.1, fun child member => ?_⟩⟩
    · simp only [treeAt, here]
      exact Fenced.map_congr fun child member => (ih child (below child member)).1
    · simp only [nodesAt, here]
      exact congrArg _ (List.flatMap_congr fun child member => (ih child (below child member)).2.1)
    · rw [here] at member
      exact (ih child (below child member)).2.2 (shape.2 child member)

/-- **A change under one child** replaces that child and nothing else. -/
theorem under_hole {h idx child : Nat} {hole : Hole Int Nat}
    (parent : row (nodes' idx) = hole.fill (.single child))
    (others : ∀ c ∈ hole.items, ∀ j ∈ nodesAt nodes h c, nodes' j = nodes j) :
    treeAt nodes' (h + 1) idx =
        (hole.map (treeAt nodes h)).fill (.single (treeAt nodes' h child)) ∧
      (nodesAt nodes' (h + 1) idx).Perm
        (idx :: (nodesAt nodes' h child ++ hole.items.flatMap (nodesAt nodes h))) ∧
      ((nodes' idx).isLeaf = false → ShapeAt nodes' h child →
        (∀ c ∈ hole.items, ShapeAt nodes h c) → ShapeAt nodes' (h + 1) idx) := by
  have same := fun c member => treeAt_congr h c (others c member)
  have items := hole.items_fill child
  refine ⟨?_, ?_, fun inner shape shapes => ⟨inner, fun c member => ?_⟩⟩
  · simp only [treeAt, parent, Hole.map_fill, Fenced.map_single]
    rw [Hole.map_congr fun c member => (same c member).1]
  · simp only [nodesAt, parent]
    refine (List.Perm.flatMap_right _ items).cons idx |>.trans ?_
    rw [List.flatMap_cons, List.flatMap_congr fun c member => (same c member).2.1]
  · rw [parent] at member
    rcases List.mem_cons.mp (items.mem_iff.mp member) with rfl | other
    · exact shape
    · exact (same c other).2.2 (shapes c other)

/-- The nodes under a parent: itself, those under one child, and those under the others. -/
theorem nodesAt_parent (h : Nat) {idx child : Nat} {hole : Hole Int Nat}
    (parent : row (nodes idx) = hole.fill (.single child)) :
    (nodesAt nodes (h + 1) idx).Perm
      (idx :: (nodesAt nodes h child ++ hole.items.flatMap (nodesAt nodes h))) :=
  (under_hole parent fun _ _ _ _ => rfl).2.1

/-! #### A node with two children -/

section Pair

variable {h idx a b : Nat} {k : Int} (pair : row (nodes idx) = ⟨[(a, k)], b⟩)
include pair

theorem treeAt_pair : treeAt nodes (h + 1) idx =
    (⟨[(treeAt nodes h a, k)], treeAt nodes h b⟩ : Fenced Int (ScoreTree h)) := by
  change (row (nodes idx)).map (treeAt nodes h) = _
  rw [pair]
  rfl

theorem nodesAt_pair :
    nodesAt nodes (h + 1) idx = idx :: (nodesAt nodes h a ++ nodesAt nodes h b) := by
  simp only [nodesAt, pair, Fenced.items, List.map_cons, List.map_nil, List.cons_append,
    List.nil_append, List.flatMap_cons, List.flatMap_nil, List.append_nil]

theorem shapeAt_pair (inner : (nodes idx).isLeaf = false) (left : ShapeAt nodes h a)
    (right : ShapeAt nodes h b) : ShapeAt nodes (h + 1) idx := by
  refine ⟨inner, ?_⟩
  rw [pair]
  simp only [Fenced.items, List.map_cons, List.map_nil, List.cons_append, List.nil_append,
    List.forall_mem_cons, List.not_mem_nil, false_implies, implies_true, and_true]
  exact ⟨left, right⟩

end Pair

end Frame

/-! ### An entry in a leaf -/

/-- **A leaf takes an entry in its order.** -/
theorem leafEntries_insert (tree : ZedisBtree) (node : BtreeNode) (score : Int) (midx : Nat) :
    leafEntries (leafInsertAt node (leafFindPos tree node score midx) score midx) =
      (leafEntries node).orderedInsert (entryLe tree.members) (score, midx) := by
  have pos : leafFindPos tree node score midx =
      (leafEntries node).findIdx fun e => !decide ¬ entryLe tree.members (score, midx) e := by
    unfold leafFindPos leafEntries cells
    rw [List.findIdx_map]
    refine congrArg (fun test => List.findIdx test _) (funext fun i => ?_)
    change decide (entryLe tree.members (score, midx) (node.keys i, node.slots i)) = _
    simp
  have inside : leafFindPos tree node score midx ≤ node.count := by
    rw [pos]
    exact List.findIdx_le_length.trans (by simp [leafEntries])
  rw [List.orderedInsert_eq_take_drop, List.takeWhile_eq_take_findIdx_not,
    List.dropWhile_eq_drop_findIdx_not, ← pos]
  generalize leafFindPos tree node score midx = i at *
  have joined : (fun j => ((leafInsertAt node i score midx).keys j,
      (leafInsertAt node i score midx).slots j)) =
      Function.update (shiftUp i node.count fun j => (node.keys j, node.slots j)) i
        (score, midx) := by
    funext j
    by_cases here : j = i
    · subst here
      simp [leafInsertAt]
    · simp only [leafInsertAt, Function.update_of_ne here, shiftUp_apply]
      split
      · rfl
      · rfl
  unfold leafEntries
  rw [joined, leafInsertAt, cells_insert _ inside]

/-! ### The child an insertion enters -/

section Descend

variable (node : BtreeNode) (s : Int)

theorem descendAt_eq :
    descendAt node s = (row node).kids.findIdx fun kid => !decide (kid.2 < s) := by
  unfold descendAt row cells
  rw [List.findIdx_map]
  rfl

theorem descendAt_le : descendAt node s ≤ node.count := by
  rw [descendAt_eq]
  exact List.findIdx_le_length.trans (by simp [row])

/-- The walk over the separators stops at child `descendAt`. -/
theorem seek_row :
    (row node).seek (fun k => k < s) = (node.slots (descendAt node s),
      ⟨(row node).kids.take (descendAt node s),
        if descendAt node s < node.count then
          some (node.keys (descendAt node s),
            ⟨(row node).kids.drop (descendAt node s + 1), node.slots node.count⟩)
        else none⟩) := by
  have inside := descendAt_le node s
  unfold Fenced.seek
  rw [List.takeWhile_eq_take_findIdx_not, List.dropWhile_eq_drop_findIdx_not, ← descendAt_eq]
  generalize descendAt node s = i at *
  by_cases below : i < node.count
  · have bound : i < (row node).kids.length := by simpa [row] using below
    rw [List.drop_eq_getElem_cons bound, if_pos below]
    simp [row, cells]
  · have last : i = node.count := by omega
    subst last
    rw [if_neg (by omega), List.drop_of_length_le (by simp [row])]
    rfl

/-- The children and separators that the shift loop of the parent leaves. -/
theorem kids_adoptAt (i promoted) (sibling : Nat) (inside : i ≤ node.count) :
    (row (adoptAt node i promoted sibling)).kids =
      (row node).kids.take i ++ (node.slots i, promoted) ::
        ((row node).kids.set i (sibling, node.keys i)).drop i := by
  have joined : ∀ j < node.count + 1, ((adoptAt node i promoted sibling).slots j,
      (adoptAt node i promoted sibling).keys j) =
      Function.update (shiftUp i node.count (Function.update (fun j => (node.slots j, node.keys j)) i
        (sibling, node.keys i))) i (node.slots i, promoted) j := by
    intro j below
    simp only [adoptAt]
    rcases Nat.lt_trichotomy j i with before | rfl | after
    · rw [Function.update_of_ne (by omega), Function.update_of_ne (by omega),
        Function.update_of_ne (by omega), shiftUp_apply, shiftUp_apply, shiftUp_apply,
        if_neg (by omega), if_neg (by omega), if_neg (by omega), Function.update_of_ne (by omega)]
    · rw [Function.update_of_ne (by omega), Function.update_self, Function.update_self,
        shiftUp_apply, if_neg (by omega)]
    · rw [Function.update_of_ne (show j ≠ i by omega), Function.update_of_ne (show j ≠ i by omega),
        shiftUp_apply, shiftUp_apply, if_pos ⟨after, by omega⟩, if_pos ⟨after, by omega⟩]
      by_cases next : j = i + 1
      · subst next
        rw [Function.update_self, Nat.add_sub_cancel, Function.update_self]
      · rw [Function.update_of_ne next, Function.update_of_ne (by omega), shiftUp_apply,
          if_pos ⟨by omega, by omega⟩]
  change cells _ (node.count + 1) = _
  rw [cells_congr joined, cells_insert _ inside, cells_update, List.take_set_of_le (Nat.le_refl i)]
  rfl

/-- **The parent takes the new half next to the old one.** -/
theorem row_adoptAt (promoted : Int) (sibling : Nat) :
    row (adoptAt node (descendAt node s) promoted sibling) =
      ((row node).seek fun k => k < s).2.fill
        ⟨[(((row node).seek fun k => k < s).1, promoted)], sibling⟩ := by
  have inside := descendAt_le node s
  rw [seek_row]
  generalize descendAt node s = i at *
  have kids := kids_adoptAt node i promoted sibling inside
  have last : (row (adoptAt node i promoted sibling)).last =
      if i < node.count then node.slots node.count else sibling := by
    change Function.update (shiftUp (i + 1) (node.count + 1) node.slots) (i + 1) sibling
      (node.count + 1) = _
    by_cases below : i < node.count
    · rw [if_pos below, Function.update_of_ne (by omega), shiftUp_apply,
        if_pos ⟨by omega, Nat.le_refl _⟩, Nat.add_sub_cancel]
    · rw [if_neg below, show node.count = i by omega, Function.update_self]
  generalize row (adoptAt node i promoted sibling) = adopted at *
  obtain ⟨kids', last'⟩ := adopted
  simp only at kids last
  have length : (row node).kids.length = node.count := by simp [row]
  by_cases below : i < node.count
  · rw [if_pos below] at last
    have tail : ((row node).kids.set i (sibling, node.keys i)).drop i =
        (sibling, node.keys i) :: (row node).kids.drop (i + 1) := by
      rw [List.drop_eq_getElem_cons (by simpa [length] using below), List.getElem_set_self,
        List.drop_set_of_lt (Nat.lt_succ_self i)]
    simp [Hole.fill, if_pos below, kids, last, tail]
  · rw [if_neg below] at last
    rw [List.drop_of_length_le (by simp [length]; omega)] at kids
    simp [Hole.fill, if_neg below, kids, last]

end Descend

/-! ### The halves of a full node -/

section Split

variable {tree : ZedisBtree} {idx : Nat}

/-- What a split leaves: the old node holds the left half and the next free node the right one. -/
structure Halved (tree after : ZedisBtree) (h idx : Nat) (left right : ScoreTree h) : Prop where
  rest : after = { tree with nodes := after.nodes, freeNode := tree.freeNode + 1 }
  frame : ∀ j, j ≠ idx → j ≠ tree.freeNode → after.nodes j = tree.nodes j
  leftTree : treeAt after.nodes h idx = left
  rightTree : treeAt after.nodes h tree.freeNode = right
  leftShape : ShapeAt after.nodes h idx
  rightShape : ShapeAt after.nodes h tree.freeNode
  ids : (nodesAt after.nodes h idx ++ nodesAt after.nodes h tree.freeNode).Perm
    (nodesAt tree.nodes h idx ++ [tree.freeNode])

theorem moveUpper_eq (mid : Nat) (right : BtreeNode) (old : idx < tree.freeNode)
    (room : tree.freeNode < tree.maxNodes) :
    ∃ after, moveUpper tree idx mid right = some (tree.freeNode, (tree.nodes idx).keys mid, after) ∧
      after = { tree with nodes := after.nodes, freeNode := tree.freeNode + 1 } ∧
      (∀ j, j ≠ idx → j ≠ tree.freeNode → after.nodes j = tree.nodes j) ∧
      after.nodes idx = { tree.nodes idx with count := mid } ∧ after.nodes tree.freeNode = right := by
  unfold moveUpper allocNode
  rw [if_neg (by omega), Option.map_some]
  refine ⟨_, rfl, rfl, fun j notIdx notFree => ?_, ?_, ?_⟩
  · simp only [Function.update_of_ne notIdx, Function.update_of_ne notFree]
  · simp only [Function.update_self]
  · simp only [Function.update_of_ne (show tree.freeNode ≠ idx by omega), Function.update_self]

theorem splitLeaf_refines {left right : ScoreTree 0} {promoted : Int}
    (shape : ShapeAt tree.nodes 0 idx) (old : idx < tree.freeNode)
    (room : tree.freeNode < tree.maxNodes)
    (halves : split Prod.fst 0 (treeAt tree.nodes 0 idx) = some (left, promoted, right)) :
    ∃ after, splitNode tree idx = some (tree.freeNode, promoted, after) ∧
      Halved tree after 0 idx left right := by
  obtain ⟨a, b, c, entries, rfl, rfl, rfl⟩ := splitEntries_eq_some halves
  have count : (tree.nodes idx).count = 3 := by
    have length := congrArg List.length entries
    simpa [treeAt, leafEntries] using length
  have values : leafEntries (tree.nodes idx) = [a, b, c] := entries
  simp only [leafEntries, cells, count, List.range_succ, List.range_zero, List.nil_append,
    List.map_cons, List.map_nil, List.cons_append, List.cons.injEq, and_true] at values
  obtain ⟨rfl, rfl, rfl⟩ := values
  have leaf : (tree.nodes idx).isLeaf = true := shape
  obtain ⟨after, same, rest, frame, lower, upper⟩ := moveUpper_eq 2
    (upperPart (tree.nodes idx) 2 1 1 true) old room
  refine ⟨after, ?_, rest, frame, ?_, ?_, ?_, ?_, List.Perm.refl _⟩
  · simp only [splitNode, if_pos leaf, splitLeaf, count]
    exact same
  · change leafEntries (after.nodes idx) = _
    rw [lower]
    rfl
  · change leafEntries (after.nodes tree.freeNode) = _
    rw [upper]
    rfl
  · simp only [ShapeAt, lower, leaf]
  · simp only [ShapeAt, upper, upperPart]

theorem splitInternal_refines {h : Nat} {left right : ScoreTree (h + 1)} {promoted : Int}
    (shape : ShapeAt tree.nodes (h + 1) idx) (nodup : (nodesAt tree.nodes (h + 1) idx).Nodup)
    (old : ∀ j ∈ nodesAt tree.nodes (h + 1) idx, j < tree.freeNode)
    (room : tree.freeNode < tree.maxNodes)
    (halves : split Prod.fst (h + 1) (treeAt tree.nodes (h + 1) idx) =
      some (left, promoted, right)) :
    ∃ after, splitNode tree idx = some (tree.freeNode, promoted, after) ∧
      Halved tree after (h + 1) idx left right := by
  obtain ⟨t₀, k₀, t₁, t₂, k₂, t₃, whole, rfl, rfl⟩ := Fenced.split_eq_some halves
  have count : (tree.nodes idx).count = 3 := by
    have length := congrArg (fun r : Fenced Int (ScoreTree h) => r.kids.length) whole
    simpa [treeAt, Fenced.map, row] using length
  have values : (row (tree.nodes idx)).map (treeAt tree.nodes h) =
      ⟨[(t₀, k₀), (t₁, promoted), (t₂, k₂)], t₃⟩ := whole
  simp only [row, Fenced.map, cells, count, List.range_succ, List.range_zero, List.nil_append,
    List.map_cons, List.map_nil, List.cons_append, Fenced.mk.injEq, List.cons.injEq, Prod.mk.injEq,
    and_true] at values
  obtain ⟨⟨⟨rfl, rfl⟩, ⟨rfl, rfl⟩, rfl, rfl⟩, rfl⟩ := values
  have inner : (tree.nodes idx).isLeaf = false := shape.1
  have items : (row (tree.nodes idx)).items = [(tree.nodes idx).slots 0, (tree.nodes idx).slots 1,
      (tree.nodes idx).slots 2, (tree.nodes idx).slots 3] := by
    rw [items_row, count]
    rfl
  have ids : nodesAt tree.nodes (h + 1) idx = idx :: [(tree.nodes idx).slots 0,
      (tree.nodes idx).slots 1, (tree.nodes idx).slots 2,
      (tree.nodes idx).slots 3].flatMap (nodesAt tree.nodes h) := by
    rw [nodesAt, items]
  obtain ⟨after, same, rest, frame, lower, upper⟩ := moveUpper_eq 1
    (upperPart (tree.nodes idx) 2 1 2 false) (old idx (self_mem_nodesAt _ _ _)) room
  -- the children are untouched
  have below : ∀ child ∈ (row (tree.nodes idx)).items, ∀ j ∈ nodesAt tree.nodes h child,
      after.nodes j = tree.nodes j := fun child member j inChild => by
    have inside : j ∈ (row (tree.nodes idx)).items.flatMap (nodesAt tree.nodes h) :=
      List.mem_flatMap.mpr ⟨child, member, inChild⟩
    refine frame j ?_ (old j (List.mem_cons_of_mem _ inside)).ne
    rintro rfl
    exact (List.nodup_cons.mp nodup).1 inside
  have kept := fun child member => treeAt_congr h child (below child member)
  rw [items] at kept
  simp only [List.mem_cons, List.not_mem_nil, or_false] at kept
  have kept₀ := kept _ (Or.inl rfl)
  have kept₁ := kept _ (Or.inr (Or.inl rfl))
  have kept₂ := kept _ (Or.inr (Or.inr (Or.inl rfl)))
  have kept₃ := kept _ (Or.inr (Or.inr (Or.inr rfl)))
  have shapes := shape.2
  rw [items] at shapes
  simp only [List.mem_cons, List.not_mem_nil, or_false] at shapes
  have lowerRow : row (after.nodes idx) = ⟨[((tree.nodes idx).slots 0, (tree.nodes idx).keys 0)],
      (tree.nodes idx).slots 1⟩ := by
    rw [lower]
    rfl
  have upperRow : row (after.nodes tree.freeNode) =
      ⟨[((tree.nodes idx).slots 2, (tree.nodes idx).keys 2)], (tree.nodes idx).slots 3⟩ := by
    rw [upper]
    rfl
  refine ⟨after, ?_, rest, frame, ?_, ?_, ?_, ?_, ?_⟩
  · simp only [splitNode, inner, splitInternal, count]
    exact same
  · rw [treeAt_pair lowerRow, kept₀.1, kept₁.1]
  · rw [treeAt_pair upperRow, kept₂.1, kept₃.1]
  · exact shapeAt_pair lowerRow (by rw [lower]; exact inner) (kept₀.2.2 (shapes _ (Or.inl rfl)))
      (kept₁.2.2 (shapes _ (Or.inr (Or.inl rfl))))
  · exact shapeAt_pair upperRow (by rw [upper]; rfl)
      (kept₂.2.2 (shapes _ (Or.inr (Or.inr (Or.inl rfl)))))
      (kept₃.2.2 (shapes _ (Or.inr (Or.inr (Or.inr rfl)))))
  · rw [ids, nodesAt_pair lowerRow, nodesAt_pair upperRow, kept₀.2.1, kept₁.2.1, kept₂.2.1, kept₃.2.1]
    simp only [List.cons_append, List.flatMap_cons, List.flatMap_nil, List.append_nil,
      List.append_assoc]
    refine List.Perm.cons idx (List.Perm.append_left _ (List.Perm.append_left _ ?_))
    exact (List.perm_append_singleton tree.freeNode _).symm.trans (by simp)

end Split

end Zedis.BTree

/-
**Insertion into the pool refines insertion into the tree.**

`Rooted tree h idx`: under `idx` stands a filled tree of height `h`, no node of which is reached by
two paths, in the allocated part of the pool. `Grown tree tree' h idx`: `tree'` differs from `tree`
under `idx` and in newly allocated nodes only, all of which are under `idx`.

* `prepare`: an inner node of `insert_nonfull` splits the full child on its way, and then the child
  it enters and the row around it are those of the abstract walk (`Fenced.route`);
* `insertNonfull_refines`: with enough free nodes `insert_nonfull` returns `0` and leaves `ins` of
  the tree.
-/

import Zedis.BTree.Pool

namespace Zedis.BTree

open Zedis.Lib Zedis.Lib.LeafTree

/-- A filled tree under `idx`, each of its nodes allocated and reached once. -/
structure Rooted (tree : ZedisBtree) (h idx : Nat) : Prop where
  shape : ShapeAt tree.nodes h idx
  nodup : (nodesAt tree.nodes h idx).Nodup
  old : ∀ j ∈ nodesAt tree.nodes h idx, j < tree.freeNode
  filled : Filled h (treeAt tree.nodes h idx)

/-- A change under `idx` and in new nodes. -/
structure Grown (tree after : ZedisBtree) (h idx : Nat) : Prop where
  rest : after = { tree with nodes := after.nodes, freeNode := after.freeNode }
  free : tree.freeNode ≤ after.freeNode
  frame : ∀ j < tree.freeNode, j ∉ nodesAt tree.nodes h idx → after.nodes j = tree.nodes j
  shape : ShapeAt after.nodes h idx
  ids : (nodesAt after.nodes h idx).Perm
    (nodesAt tree.nodes h idx ++ List.range' tree.freeNode (after.freeNode - tree.freeNode))

/-! ### Growth -/

section Growth

variable {tree middle after : ZedisBtree} {h idx : Nat}

theorem Grown.refl (shape : ShapeAt tree.nodes h idx) : Grown tree tree h idx :=
  ⟨rfl, Nat.le_refl _, fun _ _ _ => rfl, shape, by simp⟩

theorem Grown.trans (first : Grown tree middle h idx) (second : Grown middle after h idx) :
    Grown tree after h idx where
  rest := by
    rw [second.rest, first.rest]
  free := first.free.trans second.free
  frame := by
    intro j below outside
    rw [second.frame j (below.trans_le first.free), first.frame j below outside]
    intro inside
    rcases List.mem_append.mp (first.ids.mem_iff.mp inside) with old | new
    · exact outside old
    · have := (List.mem_range'_1.mp new).1
      omega
  shape := second.shape
  ids := by
    refine second.ids.trans ((first.ids.append_right _).trans ?_)
    have le := first.free
    have le' := second.free
    rw [List.append_assoc, show middle.freeNode = tree.freeNode + (middle.freeNode - tree.freeNode)
      by omega, Nat.add_sub_cancel_left, List.range'_append_1]
    rw [show middle.freeNode - tree.freeNode + (after.freeNode - (tree.freeNode +
      (middle.freeNode - tree.freeNode))) = after.freeNode - tree.freeNode by omega]

/-- The new nodes are counted by the size of the tree. -/
theorem Grown.size (grown : Grown tree after h idx) :
    LeafTree.size h (treeAt after.nodes h idx) =
      LeafTree.size h (treeAt tree.nodes h idx) + (after.freeNode - tree.freeNode) := by
  have length := grown.ids.length_eq
  rwa [List.length_append, length_nodesAt, length_nodesAt, List.length_range'] at length

/-- What is grown is rooted, if it is filled. -/
theorem Grown.rooted (grown : Grown tree after h idx) (rooted : Rooted tree h idx)
    (filled : Filled h (treeAt after.nodes h idx)) : Rooted after h idx where
  shape := grown.shape
  nodup := by
    rw [grown.ids.nodup_iff, List.nodup_append]
    refine ⟨rooted.nodup, List.nodup_range', fun j inside k new same => ?_⟩
    have := rooted.old j inside
    have := (List.mem_range'_1.mp new).1
    omega
  old := by
    intro j inside
    have le := grown.free
    rcases List.mem_append.mp (grown.ids.mem_iff.mp inside) with old | new
    · exact (rooted.old j old).trans_le le
    · have := (List.mem_range'_1.mp new).2
      omega
  filled := filled

/-- The child in a hole is rooted. -/
theorem Rooted.child {hole : Hole Int Nat} {child : Nat} (rooted : Rooted tree (h + 1) idx)
    (parent : row (tree.nodes idx) = hole.fill (.single child)) : Rooted tree h child := by
  have ids := nodesAt_parent h parent
  have member : child ∈ (row (tree.nodes idx)).items := by
    rw [parent, (hole.items_fill child).mem_iff]
    exact List.mem_cons_self
  have nodup := ids.nodup_iff.mp rooted.nodup
  refine ⟨rooted.shape.2 child member, ?_, fun j inside => rooted.old j (ids.mem_iff.mpr ?_), ?_⟩
  · exact (List.nodup_append.mp (List.nodup_cons.mp nodup).2).1
  · exact List.mem_cons_of_mem _ (List.mem_append_left _ inside)
  · refine rooted.filled.2.2 _ ?_
    change treeAt tree.nodes h child ∈ ((row (tree.nodes idx)).map (treeAt tree.nodes h)).items
    rw [Fenced.items_map]
    exact List.mem_map_of_mem member

/-- **Growth under a child is growth under its parent.** -/
theorem Grown.under {hole : Hole Int Nat} {child : Nat} (rooted : Rooted tree (h + 1) idx)
    (parent : row (tree.nodes idx) = hole.fill (.single child))
    (grown : Grown tree after h child) :
    Grown tree after (h + 1) idx ∧ treeAt after.nodes (h + 1) idx =
      (hole.map (treeAt tree.nodes h)).fill (.single (treeAt after.nodes h child)) := by
  have ids := nodesAt_parent h parent
  have nodup := List.nodup_cons.mp (ids.nodup_iff.mp rooted.nodup)
  have apart := (List.nodup_append.mp nodup.2).2.2
  have small : ∀ j, j ∈ idx :: (nodesAt tree.nodes h child ++
      hole.items.flatMap (nodesAt tree.nodes h)) → j < tree.freeNode := fun j inside =>
    rooted.old j (ids.mem_iff.mpr inside)
  have here : after.nodes idx = tree.nodes idx := grown.frame idx (small idx List.mem_cons_self)
    fun inside => nodup.1 (List.mem_append_left _ inside)
  have others : ∀ c ∈ hole.items, ∀ j ∈ nodesAt tree.nodes h c, after.nodes j = tree.nodes j := by
    intro c member j inside
    have inItems : j ∈ hole.items.flatMap (nodesAt tree.nodes h) :=
      List.mem_flatMap.mpr ⟨c, member, inside⟩
    refine grown.frame j (small j (List.mem_cons_of_mem _ (List.mem_append_right _ inItems))) ?_
    exact fun inChild => apart j inChild j inItems rfl
  have items : ∀ c ∈ hole.items, c ∈ (row (tree.nodes idx)).items := fun c member => by
    rw [parent, (hole.items_fill child).mem_iff]
    exact List.mem_cons_of_mem _ member
  obtain ⟨treeEq, idsAfter, shape⟩ := under_hole (here ▸ parent) others
  refine ⟨⟨grown.rest, grown.free, fun j below outside => ?_, ?_, ?_⟩, treeEq⟩
  · refine grown.frame j below fun inside => outside (ids.mem_iff.mpr ?_)
    exact List.mem_cons_of_mem _ (List.mem_append_left _ inside)
  · refine shape (here ▸ rooted.shape.1) grown.shape fun c member => ?_
    exact rooted.shape.2 c (items c member)
  · refine idsAfter.trans (((grown.ids.append_right _).cons idx).trans ?_)
    refine List.Perm.trans ?_ (ids.symm.append_right _)
    rw [List.cons_append, List.append_assoc, List.append_assoc]
    exact ((List.perm_append_comm).append_left _).cons idx

end Growth

/-! ### Full nodes -/

section Full

variable {tree : ZedisBtree} {h idx : Nat}

/-- The code's test for a full node. -/
theorem count_lt_iff (rooted : Rooted tree h idx) :
    (tree.nodes idx).count < btreeMaxKeys ↔
      split Prod.fst h (treeAt tree.nodes h idx) = none := by
  have filled := rooted.filled
  cases h with
  | zero =>
    have length : (leafEntries (tree.nodes idx)).length = (tree.nodes idx).count := by
      simp [leafEntries]
    have three : (leafEntries (tree.nodes idx)).length ≤ 3 := filled.2
    have none : splitEntries Prod.fst (leafEntries (tree.nodes idx)) = none ↔ _ :=
      splitEntries_eq_none three
    rw [length] at none
    exact Nat.lt_succ_iff.trans none.symm
  | succ h =>
    have length : ((row (tree.nodes idx)).map (treeAt tree.nodes h)).kids.length =
        (tree.nodes idx).count := by
      simp [row, Fenced.map]
    have three : ((row (tree.nodes idx)).map (treeAt tree.nodes h)).kids.length ≤ 3 := filled.2.1
    have none := Fenced.split_eq_none three
    rw [length] at none
    exact Nat.lt_succ_iff.trans none.symm

/-- **A full node is split in its halves.** -/
theorem splitNode_refines (rooted : Rooted tree h idx) (room : tree.freeNode < tree.maxNodes)
    {left right : ScoreTree h} {promoted : Int}
    (halves : split Prod.fst h (treeAt tree.nodes h idx) = some (left, promoted, right)) :
    ∃ after, splitNode tree idx = some (tree.freeNode, promoted, after) ∧
      Halved tree after h idx left right := by
  cases h with
  | zero =>
    exact splitLeaf_refines rooted.shape (rooted.old idx (self_mem_nodesAt _ _ _)) room halves
  | succ h => exact splitInternal_refines rooted.shape rooted.nodup rooted.old room halves

end Full

/-! ### The walk -/

section Walk

variable {tree : ZedisBtree} {h idx : Nat} {score : Int} {midx : Nat}

/-- The parent after a full child is split: the pool, and the child the walk enters in its hole. -/
structure Prepared (tree after : ZedisBtree) (h idx : Nat) (score : Int) (child : Nat)
    (hole : Hole Int Nat) : Prop where
  grown : Grown tree after (h + 1) idx
  parent : row (after.nodes idx) = hole.fill (.single child)
  routed : Fenced.route (split Prod.fst h) score ((row (tree.nodes idx)).map (treeAt tree.nodes h)) =
    (treeAt after.nodes h child, hole.map (treeAt after.nodes h))

/-- The pool after the parent `idx` took the right half of its child: the halves are where the split
left them, and the other children where they were. -/
structure Adopted (tree after next : ZedisBtree) (h idx child : Nat) (promoted : Int)
    (hole : Hole Int Nat) : Prop where
  rest : next = { after with nodes := next.nodes }
  isLeaf : (next.nodes idx).isLeaf = (tree.nodes idx).isLeaf
  row_eq : row (next.nodes idx) = hole.fill ⟨[(child, promoted)], tree.freeNode⟩
  frame : ∀ j, j ≠ idx → next.nodes j = after.nodes j
  halves : ∀ j, j ∈ nodesAt after.nodes h child ∨ j ∈ nodesAt after.nodes h tree.freeNode →
    next.nodes j = after.nodes j
  others : ∀ c ∈ hole.items, ∀ j ∈ nodesAt tree.nodes h c, next.nodes j = tree.nodes j

section Adoption

variable {after next : ZedisBtree} {child : Nat} {hole : Hole Int Nat} {left right : ScoreTree h}
  {promoted : Int}

theorem seek_parent (seeks : (row (tree.nodes idx)).seek (fun k => k < score) = (child, hole)) :
    row (tree.nodes idx) = hole.fill (.single child) := by
  have whole := Fenced.seek_fill (fun k => decide (k < score)) (row (tree.nodes idx))
  rw [seeks] at whole
  exact whole.symm

theorem adopt_adopted (rooted : Rooted tree (h + 1) idx)
    (seeks : (row (tree.nodes idx)).seek (fun k => k < score) = (child, hole))
    (halved : Halved tree after h child left right) :
    Adopted tree after (adopt after idx (descendAt (tree.nodes idx) score) promoted tree.freeNode)
      h idx child promoted hole := by
  have ids := nodesAt_parent h (seek_parent seeks)
  have nodup := List.nodup_cons.mp (ids.nodup_iff.mp rooted.nodup)
  have apart := (List.nodup_append.mp nodup.2).2.2
  have childHere := self_mem_nodesAt tree.nodes h child
  have idxOld : idx < tree.freeNode := rooted.old idx (self_mem_nodesAt _ _ _)
  have idxChild : idx ≠ child := by
    rintro rfl
    exact nodup.1 (List.mem_append_left _ childHere)
  have idxSame : after.nodes idx = tree.nodes idx := halved.frame idx idxChild idxOld.ne
  generalize made : adopt after idx (descendAt (tree.nodes idx) score) promoted tree.freeNode = next
  have here : next.nodes idx =
      adoptAt (tree.nodes idx) (descendAt (tree.nodes idx) score) promoted tree.freeNode := by
    rw [← made, ← idxSame]
    exact Function.update_self _ _ _
  have frame : ∀ j, j ≠ idx → next.nodes j = after.nodes j := fun j differs => by
    rw [← made]
    exact Function.update_of_ne differs _ _
  refine ⟨by rw [← made]; rfl, by rw [here]; rfl, ?_, frame, fun j inHalf => frame j ?_,
    fun c member j inside => ?_⟩
  · rw [here, row_adoptAt, seeks]
  · rintro rfl
    rcases List.mem_append.mp (halved.ids.mem_iff.mp (List.mem_append.mpr inHalf)) with old | new
    · exact nodup.1 (List.mem_append_left _ old)
    · exact idxOld.ne (List.mem_singleton.mp new)
  · have inItems : j ∈ hole.items.flatMap (nodesAt tree.nodes h) :=
      List.mem_flatMap.mpr ⟨c, member, inside⟩
    have old : j < tree.freeNode := rooted.old j (ids.mem_iff.mpr
      (List.mem_cons_of_mem _ (List.mem_append_right _ inItems)))
    rw [frame j, halved.frame j _ old.ne]
    · rintro rfl
      exact apart _ childHere _ inItems rfl
    · rintro rfl
      exact nodup.1 (List.mem_append_right _ inItems)

theorem Adopted.freeNode (adopted : Adopted tree after next h idx child promoted hole)
    (halved : Halved tree after h child left right) : next.freeNode = tree.freeNode + 1 := by
  rw [adopted.rest, halved.rest]

/-- The subtrees under the adopting parent. -/
theorem Adopted.subtrees (adopted : Adopted tree after next h idx child promoted hole) :
    (treeAt next.nodes h child = treeAt after.nodes h child ∧
      treeAt next.nodes h tree.freeNode = treeAt after.nodes h tree.freeNode) ∧
      hole.map (treeAt next.nodes h) = hole.map (treeAt tree.nodes h) :=
  ⟨⟨(treeAt_congr h child fun j inside => adopted.halves j (Or.inl inside)).1,
    (treeAt_congr h tree.freeNode fun j inside => adopted.halves j (Or.inr inside)).1⟩,
    Hole.map_congr fun c member => (treeAt_congr h c (adopted.others c member)).1⟩

/-- **Adoption is growth by one node.** -/
theorem Adopted.grown (adopted : Adopted tree after next h idx child promoted hole)
    (rooted : Rooted tree (h + 1) idx) (parent : row (tree.nodes idx) = hole.fill (.single child))
    (halved : Halved tree after h child left right) : Grown tree next (h + 1) idx := by
  have ids := nodesAt_parent h parent
  have leftKept := treeAt_congr h child fun j inside => adopted.halves j (Or.inl inside)
  have rightKept := treeAt_congr h tree.freeNode fun j inside => adopted.halves j (Or.inr inside)
  have kept := fun c member => treeAt_congr h c (adopted.others c member)
  have items := hole.items_fill_pair child tree.freeNode promoted
  have oldItems : ∀ c ∈ hole.items, c ∈ (row (tree.nodes idx)).items := fun c member => by
    rw [parent, (hole.items_fill child).mem_iff]
    exact List.mem_cons_of_mem _ member
  have free := adopted.freeNode halved
  refine ⟨?_, by omega, fun j below outside => ?_, ⟨?_, fun c member => ?_⟩, ?_⟩
  · rw [free, adopted.rest, halved.rest]
  · have notIdx : j ≠ idx := by
      rintro rfl
      exact outside (self_mem_nodesAt _ _ _)
    rw [adopted.frame j notIdx]
    refine halved.frame j ?_ below.ne
    rintro rfl
    exact outside (ids.mem_iff.mpr (List.mem_cons_of_mem _
      (List.mem_append_left _ (self_mem_nodesAt tree.nodes h j))))
  · rw [adopted.isLeaf]
    exact rooted.shape.1
  · rw [adopted.row_eq, items.mem_iff, List.mem_cons, List.mem_cons] at member
    rcases member with rfl | rfl | other
    · exact leftKept.2.2 halved.leftShape
    · exact rightKept.2.2 halved.rightShape
    · exact (kept c other).2.2 (rooted.shape.2 c (oldItems c other))
  · rw [free, Nat.add_sub_cancel_left]
    simp only [nodesAt, adopted.row_eq]
    refine ((List.Perm.flatMap_right _ items).cons idx).trans ?_
    rw [List.flatMap_cons, List.flatMap_cons, leftKept.2.1, rightKept.2.1,
      List.flatMap_congr fun c member => (kept c member).2.1, ← List.append_assoc]
    refine ((halved.ids.append_right _).cons idx).trans ?_
    refine List.Perm.trans ?_ (ids.symm.append_right _)
    rw [List.cons_append, List.append_assoc, List.append_assoc]
    exact ((List.perm_append_comm).append_left _).cons idx

/-- **The split of a full child**, and its adoption by the parent. -/
theorem adopt_refines (rooted : Rooted tree (h + 1) idx) (room : tree.freeNode < tree.maxNodes)
    (seeks : (row (tree.nodes idx)).seek (fun k => k < score) = (child, hole))
    (halves : split Prod.fst h (treeAt tree.nodes h child) = some (left, promoted, right)) :
    ∃ after, splitNode tree child = some (tree.freeNode, promoted, after) ∧
      Prepared tree (adopt after idx (descendAt (tree.nodes idx) score) promoted tree.freeNode)
        h idx score (if score ≥ promoted then tree.freeNode else child)
        (if score ≥ promoted then hole.pushLeft child promoted
          else hole.pushRight promoted tree.freeNode) := by
  have parent := seek_parent seeks
  obtain ⟨after, ends, halved⟩ := splitNode_refines (rooted.child parent) room halves
  have adopted : Adopted tree after _ h idx child promoted hole := adopt_adopted rooted seeks halved
  obtain ⟨⟨leftTree, rightTree⟩, holeTree⟩ := adopted.subtrees
  refine ⟨after, ends, adopted.grown rooted parent halved, ?_, ?_⟩
  · rw [adopted.row_eq]
    split
    · rw [Hole.fill_pushLeft]
    · rw [Hole.fill_pushRight]
  · simp only [Fenced.route, Fenced.seek_map, seeks, halves]
    by_cases up : promoted ≤ score
    · rw [if_pos up, if_pos (show score ≥ promoted from up),
        if_pos (show score ≥ promoted from up), Hole.map_pushLeft, holeTree, leftTree, rightTree,
        halved.leftTree, halved.rightTree]
    · rw [if_neg up, if_neg (show ¬ score ≥ promoted from up),
        if_neg (show ¬ score ≥ promoted from up), Hole.map_pushRight, holeTree, leftTree, rightTree,
        halved.leftTree, halved.rightTree]

end Adoption

/-- What a prepared parent holds: the routed tree. -/
theorem Prepared.treeAt_eq {after : ZedisBtree} {child : Nat} {hole : Hole Int Nat}
    (prepared : Prepared tree after h idx score child hole) :
    treeAt after.nodes (h + 1) idx =
      (hole.map (treeAt after.nodes h)).fill (.single (treeAt after.nodes h child)) := by
  change (row (after.nodes idx)).map (treeAt after.nodes h) = _
  rw [prepared.parent, Hole.map_fill, Fenced.map_single]

/-- **An inner node of the walk**: the full child is split first, and the walk goes on. -/
theorem prepare (fuel : Nat) (rooted : Rooted tree (h + 1) idx)
    (room : tree.freeNode + size (h + 1) (ins Prod.fst (entryLe tree.members) (h + 1)
        (treeAt tree.nodes (h + 1) idx) (score, midx)) ≤
      tree.maxNodes + size (h + 1) (treeAt tree.nodes (h + 1) idx)) :
    ∃ after child hole, Prepared tree after h idx score child hole ∧
      insertNonfull score midx (fuel + 1) tree idx = insertNonfull score midx fuel after child := by
  have inner : (tree.nodes idx).isLeaf = false := rooted.shape.1
  obtain ⟨child, hole, seeks⟩ : ∃ child hole,
      (row (tree.nodes idx)).seek (fun k => k < score) = (child, hole) := ⟨_, _, rfl⟩
  have childEq : (tree.nodes idx).slots (descendAt (tree.nodes idx) score) = child := by
    have found := seek_row (tree.nodes idx) score
    rw [seeks] at found
    exact (congrArg Prod.fst found).symm
  have parent : row (tree.nodes idx) = hole.fill (.single child) := by
    have whole := Fenced.seek_fill (fun k => decide (k < score)) (row (tree.nodes idx))
    rw [seeks] at whole
    exact whole.symm
  have routedSeek : ((row (tree.nodes idx)).map (treeAt tree.nodes h)).seek (fun k => k < score) =
      (treeAt tree.nodes h child, hole.map (treeAt tree.nodes h)) := by
    rw [Fenced.seek_map, seeks]
  have full := count_lt_iff (rooted.child parent)
  cases halves : split Prod.fst h (treeAt tree.nodes h child) with
  | none =>
    have notFull : ¬ (tree.nodes child).count ≥ btreeMaxKeys := Nat.not_le.mpr (full.mpr halves)
    refine ⟨tree, child, hole, ⟨Grown.refl rooted.shape, parent, ?_⟩, ?_⟩
    · simp only [Fenced.route, routedSeek, halves]
    · simp only [insertNonfull, inner, childEq, if_neg notFull, Bool.false_eq_true, if_false]
  | some parts =>
    obtain ⟨left, promoted, right⟩ := parts
    have isFull : (tree.nodes child).count ≥ btreeMaxKeys := by
      refine Nat.not_lt.mp fun less => ?_
      rw [full.mp less] at halves
      cases halves
    have free : tree.freeNode < tree.maxNodes := by
      have routed := size_route Prod.fst h ((row (tree.nodes idx)).map (treeAt tree.nodes h)) score
      rw [routedSeek, halves, Option.isSome_some, if_pos rfl] at routed
      have grows := size_le_ins Prod.fst (entryLe tree.members) h
        (Fenced.route (split Prod.fst h) score ((row (tree.nodes idx)).map (treeAt tree.nodes h))).1
        (score, midx)
      have inserted := size_fill h
        (Fenced.route (split Prod.fst h) score ((row (tree.nodes idx)).map (treeAt tree.nodes h))).2
        (ins Prod.fst (entryLe tree.members) h (Fenced.route (split Prod.fst h) score
          ((row (tree.nodes idx)).map (treeAt tree.nodes h))).1 (score, midx))
      rw [ins, treeAt, inserted] at room
      omega
    obtain ⟨after, ends, prepared⟩ := adopt_refines rooted free seeks halves
    refine ⟨_, _, _, prepared, ?_⟩
    simp only [insertNonfull, inner, childEq, if_pos isFull, ends, Bool.false_eq_true, if_false]

/-- **`insert_nonfull` inserts into the tree under its node.** -/
theorem insertNonfull_refines (score : Int) (midx h : Nat) :
    ∀ (fuel : Nat) (tree : ZedisBtree) (idx : Nat), h < fuel →
    Rooted tree h idx → split Prod.fst h (treeAt tree.nodes h idx) = none →
    tree.freeNode + size h (ins Prod.fst (entryLe tree.members) h (treeAt tree.nodes h idx)
      (score, midx)) ≤ tree.maxNodes + size h (treeAt tree.nodes h idx) →
    ∃ after, insertNonfull score midx fuel tree idx = some (0, after) ∧ Grown tree after h idx ∧
      treeAt after.nodes h idx =
        ins Prod.fst (entryLe tree.members) h (treeAt tree.nodes h idx) (score, midx) := by
  induction h with
  | zero =>
    intro fuel tree idx enough rooted _ _
    obtain ⟨fuel, rfl⟩ : ∃ n, fuel = n + 1 := ⟨fuel - 1, by omega⟩
    have leaf : (tree.nodes idx).isLeaf = true := rooted.shape
    refine ⟨(insertIntoLeaf tree idx score midx).2, ?_, ⟨rfl, Nat.le_refl _, fun j _ outside => ?_,
      ?_, ?_⟩, ?_⟩
    · simp only [insertNonfull, leaf, if_true]
      rfl
    · exact Function.update_of_ne (fun same => outside (List.mem_singleton.mpr same)) _ _
    · simp only [ShapeAt, insertIntoLeaf, Function.update_self]
      exact leaf
    · simp [nodesAt, insertIntoLeaf]
    · change leafEntries (Function.update tree.nodes idx _ idx) = _
      rw [Function.update_self, leafEntries_insert]
      rfl
  | succ h ih =>
    intro fuel tree idx enough rooted notFull room
    obtain ⟨fuel, rfl⟩ : ∃ n, fuel = n + 1 := ⟨fuel - 1, by omega⟩
    obtain ⟨middle, child, hole, prepared, goes⟩ := prepare fuel rooted room
    have inserted : ins Prod.fst (entryLe tree.members) (h + 1) (treeAt tree.nodes (h + 1) idx)
        (score, midx) = (hole.map (treeAt middle.nodes h)).fill (.single (ins Prod.fst
          (entryLe tree.members) h (treeAt middle.nodes h child) (score, midx))) :=
      ins_of_route _ (score, midx) prepared.routed
    obtain ⟨childFilled, childFree, fills⟩ := filled_route prepared.routed rooted.filled notFull
    have rootedMiddle : Rooted middle (h + 1) idx :=
      prepared.grown.rooted rooted (prepared.treeAt_eq ▸ fills _ childFilled)
    -- the nodes the split took are those the tree grew by
    have grew := prepared.grown.size
    rw [prepared.treeAt_eq, size_fill] at grew
    rw [inserted, size_fill] at room
    have sameMembers : middle.members = tree.members := by rw [prepared.grown.rest]
    have sameMax : middle.maxNodes = tree.maxNodes := by rw [prepared.grown.rest]
    have le := prepared.grown.free
    obtain ⟨after, ends, grown, inChild⟩ := ih fuel middle child (by omega)
      (rootedMiddle.child prepared.parent) childFree (by rw [sameMembers, sameMax]; omega)
    obtain ⟨grownUp, treeEq⟩ := grown.under rootedMiddle prepared.parent
    refine ⟨after, goes.trans ends, prepared.grown.trans grownUp, ?_⟩
    rw [treeEq, inChild, inserted, sameMembers]

end Walk

end Zedis.BTree

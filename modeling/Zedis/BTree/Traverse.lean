/-
**Traversals of the pool read the entries from left to right.**

`find_member`, `count_entries` and `collect_inorder` recurse over the children of a node in order.
On a pool that holds a tree they return, and what they compute is a search, a length and a fold over
the entries of the tree.
-/

import Zedis.BTree.Root

namespace Zedis.BTree

open Zedis.Lib Zedis.Lib.LeafTree

/-- The member indices under a node, from left to right. -/
def membersAt (nodes : Nat → BtreeNode) : Nat → Nat → List Nat
  | 0, idx => cells (nodes idx).slots (nodes idx).count
  | h + 1, idx => (cells (nodes idx).slots ((nodes idx).count + 1)).flatMap (membersAt nodes h)

/-- They are the member indices of the entries. -/
theorem membersAt_eq (nodes : Nat → BtreeNode) (h : Nat) : ∀ idx,
    membersAt nodes h idx = (entries h (treeAt nodes h idx)).map Prod.snd := by
  induction h with
  | zero =>
    intro idx
    exact (map_cells Prod.snd (fun i => ((nodes idx).keys i, (nodes idx).slots i)) _).symm
  | succ h ih =>
    intro idx
    have whole : entries (h + 1) (treeAt nodes (h + 1) idx) =
        ((row (nodes idx)).map (treeAt nodes h)).items.flatMap (entries h) :=
      Fenced.weave_items (entries h) ((row (nodes idx)).map (treeAt nodes h))
    rw [membersAt, whole, Fenced.items_map, items_row, List.map_flatMap, List.flatMap_map,
      funext ih]

theorem memberEqual_iff {m : BtreeMember} {member : Bytes} :
    memberEqual m member = true ↔ m.data = member := by
  unfold memberEqual
  rw [Bool.and_eq_true, beq_iff_eq, beq_iff_eq]
  constructor
  · intro both
    exact (memcmp_eq_zero_iff both.1).mp both.2
  · rintro rfl
    exact ⟨rfl, (memcmp_eq_zero_iff rfl).mpr rfl⟩

section Traverse

variable {tree : ZedisBtree}

theorem firstHit_eq {search : Nat → Option (Option Nat)} {f : Nat → List Nat} {test : Nat → Bool} :
    ∀ children : List Nat, (∀ child ∈ children, search child = some ((f child).find? test)) →
      firstHit search children = some ((children.flatMap f).find? test)
  | [], _ => rfl
  | child :: rest, searches => by
    have ih := firstHit_eq rest fun c member => searches c (List.mem_cons_of_mem _ member)
    rw [firstHit, searches child List.mem_cons_self, List.flatMap_cons, List.find?_append]
    cases (f child).find? test with
    | none => exact ih
    | some hit => rfl

/-- **`find_member` searches the members from left to right.** -/
theorem findMember_eq (member : Bytes) (h : Nat) : ∀ fuel idx, h < fuel → ShapeAt tree.nodes h idx →
    findMember tree member fuel idx = some ((membersAt tree.nodes h idx).find? fun midx =>
      memberEqual (tree.members midx) member) := by
  induction h with
  | zero =>
    intro fuel idx enough shape
    obtain ⟨fuel, rfl⟩ : ∃ n, fuel = n + 1 := ⟨fuel - 1, by omega⟩
    have leaf : (tree.nodes idx).isLeaf = true := shape
    simp only [findMember, leaf, if_true, findInLeaf, membersAt]
  | succ h ih =>
    intro fuel idx enough shape
    obtain ⟨fuel, rfl⟩ : ∃ n, fuel = n + 1 := ⟨fuel - 1, by omega⟩
    have inner : (tree.nodes idx).isLeaf = false := shape.1
    simp only [findMember, inner, Bool.false_eq_true, if_false, membersAt]
    refine firstHit_eq _ fun child member => ih fuel child (by omega) (shape.2 child ?_)
    rw [items_row]
    exact member

theorem foldlM_eq_foldl {σ : Type} {f : σ → Nat → Option σ} {g : σ → Nat → σ} {below : Nat → List Nat} :
    ∀ (children : List Nat) (s : σ),
      (∀ child ∈ children, ∀ s, f s child = some ((below child).foldl g s)) →
      children.foldlM f s = some ((children.flatMap below).foldl g s)
  | [], _, _ => rfl
  | child :: rest, s, steps => by
    rw [List.foldlM_cons, steps child List.mem_cons_self, List.flatMap_cons, List.foldl_append]
    exact foldlM_eq_foldl rest _ fun c member => steps c (List.mem_cons_of_mem _ member)

/-- **`count_entries` counts the entries.** -/
theorem countEntries_eq (h : Nat) : ∀ fuel idx, h < fuel → ShapeAt tree.nodes h idx →
    countEntries tree fuel idx = some (membersAt tree.nodes h idx).length := by
  induction h with
  | zero =>
    intro fuel idx enough shape
    obtain ⟨fuel, rfl⟩ : ∃ n, fuel = n + 1 := ⟨fuel - 1, by omega⟩
    have leaf : (tree.nodes idx).isLeaf = true := shape
    simp only [countEntries, leaf, if_true, membersAt, length_cells]
  | succ h ih =>
    intro fuel idx enough shape
    obtain ⟨fuel, rfl⟩ : ∃ n, fuel = n + 1 := ⟨fuel - 1, by omega⟩
    have inner : (tree.nodes idx).isLeaf = false := shape.1
    have count : ∀ (l : List Nat) (n : Nat), l.foldl (fun n _ => n + 1) n = n + l.length := by
      intro l
      induction l with
      | nil => exact fun n => rfl
      | cons a l ihl =>
        intro n
        rw [List.foldl_cons, ihl, List.length_cons]
        omega
    simp only [countEntries, inner, Bool.false_eq_true, if_false, membersAt]
    rw [foldlM_eq_foldl (g := fun n _ => n + 1) _ _ fun child member n => ?_, count, Nat.zero_add]
    rw [ih fuel child (by omega) (shape.2 child (by rw [items_row]; exact member)), Option.map_some,
      count]

/-- The walk of `collect_inorder`, with the member indices in place of the reply. -/
def inorderAt (tree : ZedisBtree) : Nat → Nat → Option (List Nat)
  | 0, _ => none
  | fuel + 1, nodeIdx =>
    let node := tree.nodes nodeIdx
    if node.isLeaf then some (cells node.slots node.count)
    else (cells node.slots (node.count + 1)).foldlM
      (fun walked child => (inorderAt tree fuel child).map fun more => walked ++ more) []

/-- The member indices in the order of the walk from the root. -/
def inorder (tree : ZedisBtree) : Option (List Nat) :=
  match tree.root with
  | none => some []
  | some root => inorderAt tree tree.maxNodes root

theorem inorderAt_eq (h : Nat) : ∀ fuel idx, h < fuel → ShapeAt tree.nodes h idx →
    inorderAt tree fuel idx = some (membersAt tree.nodes h idx) := by
  induction h with
  | zero =>
    intro fuel idx enough shape
    obtain ⟨fuel, rfl⟩ : ∃ n, fuel = n + 1 := ⟨fuel - 1, by omega⟩
    have leaf : (tree.nodes idx).isLeaf = true := shape
    simp only [inorderAt, leaf, if_true, membersAt]
  | succ h ih =>
    intro fuel idx enough shape
    obtain ⟨fuel, rfl⟩ : ∃ n, fuel = n + 1 := ⟨fuel - 1, by omega⟩
    have inner : (tree.nodes idx).isLeaf = false := shape.1
    have snoc : ∀ l walked : List Nat, l.foldl (fun walked i => walked ++ [i]) walked = walked ++ l := by
      intro l
      induction l with
      | nil => exact fun walked => (List.append_nil walked).symm
      | cons i l ihl =>
        intro walked
        rw [List.foldl_cons, ihl, List.append_assoc, List.singleton_append]
    simp only [inorderAt, inner, Bool.false_eq_true, if_false, membersAt]
    rw [foldlM_eq_foldl (g := fun walked i => walked ++ [i]) _ _ fun child member walked => ?_, snoc,
      List.nil_append]
    rw [ih fuel child (by omega) (shape.2 child (by rw [items_row]; exact member)), Option.map_some,
      snoc]

/-- **`collect_inorder` visits the members from left to right.** -/
theorem collectInorder_eq (start stop : Int) (replyCap h : Nat) : ∀ fuel state idx, h < fuel →
    ShapeAt tree.nodes h idx → collectInorder tree start stop replyCap fuel state idx =
      some ((membersAt tree.nodes h idx).foldl (collectMember tree start stop replyCap) state) := by
  induction h with
  | zero =>
    intro fuel state idx enough shape
    obtain ⟨fuel, rfl⟩ : ∃ n, fuel = n + 1 := ⟨fuel - 1, by omega⟩
    have leaf : (tree.nodes idx).isLeaf = true := shape
    simp only [collectInorder, leaf, if_true, membersAt]
  | succ h ih =>
    intro fuel state idx enough shape
    obtain ⟨fuel, rfl⟩ : ∃ n, fuel = n + 1 := ⟨fuel - 1, by omega⟩
    have inner : (tree.nodes idx).isLeaf = false := shape.1
    simp only [collectInorder, inner, Bool.false_eq_true, if_false, membersAt]
    refine foldlM_eq_foldl _ _ fun child member state => ih fuel state child (by omega)
      (shape.2 child ?_)
    rw [items_row]
    exact member

end Traverse

end Zedis.BTree

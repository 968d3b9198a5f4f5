/-
**The reply of `zedis_btree_range`.**

The members of a tree stand in the order of the walk from its root (`membersOf`). The reply announces
the members of a slice of them and appends the text of each that still fits (`zedisBtreeRange_eq`).
-/

import Zedis.BTree.ScoreOrder
import Zedis.Lib.Slice

namespace Zedis.BTree

open Zedis.Lib Zedis.Lib.LeafTree Zedis.Reply

/-- The members in the order of the walk. -/
def membersOf (tree : ZedisBtree) : List Bytes :=
  ((inorder tree).getD []).map fun midx => (tree.members midx).data

/-- The array of some elements, less those that do not fit when it is their turn. -/
def fittingText (elements : List Bytes) (cap : Nat) : Option Bytes :=
  (formatted (arrayHeader elements.length) cap).map fun header =>
    (elements.map bulkText).foldl (appendFitting cap) header

section Collect

variable {tree : ZedisBtree} {start stop : Int} {cap : Nat}

theorem foldl_collect_before (members : List Nat) : ∀ (i : Int) (reply : Bytes),
    i + members.length ≤ start → members.foldl (collectMember tree start stop cap) (i, reply) =
      (i + members.length, reply) := by
  induction members with
  | nil => exact fun i reply _ => by rw [List.length_nil, Int.natCast_zero, Int.add_zero]; rfl
  | cons midx members ih =>
    intro i reply before
    rw [List.length_cons] at before
    rw [List.foldl_cons, collectMember, if_neg (by omega), ih _ _ (by omega), List.length_cons]
    congr 1
    omega

theorem foldl_collect_inside (members : List Nat) : ∀ (i : Int) (reply : Bytes), start ≤ i →
    i + members.length ≤ stop + 1 →
    members.foldl (collectMember tree start stop cap) (i, reply) =
      (i + members.length, (members.map fun midx => bulkText (tree.members midx).data).foldl
        (appendFitting cap) reply) := by
  induction members with
  | nil => exact fun i reply _ _ => by rw [List.length_nil, Int.natCast_zero, Int.add_zero]; rfl
  | cons midx members ih =>
    intro i reply above inside
    rw [List.length_cons] at inside
    rw [List.foldl_cons, collectMember, if_pos (by omega), ih _ _ (by omega) (by omega),
      List.length_cons, List.map_cons, List.foldl_cons]
    congr 1
    omega

theorem foldl_collect_after (members : List Nat) : ∀ (i : Int) (reply : Bytes), stop < i →
    (members.foldl (collectMember tree start stop cap) (i, reply)).2 = reply := by
  induction members with
  | nil => exact fun _ _ _ => rfl
  | cons midx members ih =>
    intro i reply after
    rw [List.foldl_cons, collectMember, if_neg (by omega)]
    exact ih _ _ (by omega)

variable (tree cap) in
/-- **The walk appends the members of the slice.** -/
theorem foldl_collect (members : List Nat) (first : 0 ≤ start) (ordered : start ≤ stop)
    (last : stop < members.length) (reply : Bytes) :
    (members.foldl (collectMember tree start stop cap) (0, reply)).2 =
      (((members.drop start.toNat).take (stop - start + 1).toNat).map
        fun midx => bulkText (tree.members midx).data).foldl (appendFitting cap) reply := by
  generalize slice_eq : (members.drop start.toNat).take (stop - start + 1).toNat = chosen
  have parts : members = members.take start.toNat ++
      (chosen ++ (members.drop start.toNat).drop (stop - start + 1).toNat) := by
    rw [← slice_eq, List.take_append_drop, List.take_append_drop]
  have before : ((members.take start.toNat).length : Int) = start := by
    rw [List.length_take]
    omega
  have inside : (chosen.length : Int) = stop - start + 1 := by
    rw [← slice_eq, List.length_take, List.length_drop]
    omega
  rw [parts, List.foldl_append, List.foldl_append, foldl_collect_before _ 0 reply (by omega),
    foldl_collect_inside chosen _ reply (by omega) (by omega)]
  exact foldl_collect_after _ _ _ (by omega)

end Collect

section Range

variable {tree : ZedisBtree} {t : ScoreTrees}

/-- **The reply announces a slice and appends what fits of it.** -/
theorem zedisBtreeRange_eq (inv : SetInv tree t) (start stop : Int) (cap : Nat) :
    zedisBtreeRange tree start stop cap =
      some (fittingText (slice (membersOf tree) start stop) cap) := by
  have small := inv.size_le
  have stored := inv.built.stored
  obtain ⟨-, order⟩ := inv.treeOf_eq
  rw [membersOf, order, Option.getD_some, slice_map, fittingText, List.length_map, List.map_map]
  cases t with
  | empty =>
    have nothing : slice (List.map Prod.snd (RootedTree.empty : ScoreTrees).entries) start stop = [] := by
      rw [RootedTree.entries, List.map_nil, slice_nil]
    rw [zedisBtreeRange, stored.1, nothing]
    exact congrArg some Option.map_id'.symm
  | root h t =>
    obtain ⟨root, isRoot, rooted, rfl, -⟩ := stored
    have high := (height_lt_size h (treeAt tree.nodes h root)).trans_le small
    rw [RootedTree.entries, ← membersAt_eq]
    unfold zedisBtreeRange
    simp only [isRoot, countEntries_eq h tree.maxNodes root high rooted.shape, Option.bind_some]
    generalize members_eq : membersAt tree.nodes h root = members
    change (if sliceStart start > sliceStop members.length stop ∨ members.length = 0 then _ else _) = _
    have last := sliceStop_lt members.length stop
    have first := sliceStart_nonneg start
    by_cases empty : sliceStart start > sliceStop members.length stop ∨ members.length = 0
    · rw [if_pos empty, slice_eq_nil (by omega)]
      exact congrArg some Option.map_id'.symm
    · rw [if_neg empty, length_slice]
      rw [not_or] at empty
      rw [← sliceStart, ← sliceStop, ← sliceCount]
      cases formatted (arrayHeader (sliceCount members.length start stop)) cap with
      | none => rfl
      | some header =>
        have walk := collectInorder_eq (sliceStart start) (sliceStop members.length stop) cap h
          tree.maxNodes (0, header) root high rooted.shape
        rw [members_eq] at walk
        simp only [walk, Option.map_some, foldl_collect tree cap members first (by omega) last header]
        rfl

/-- A member has fewer than `ZEDIS_BTREE_MAX_MEMBER` bytes. -/
theorem length_of_membersOf (inv : SetInv tree t) {data : Bytes} (member : data ∈ membersOf tree) :
    data.length < zedisBtreeMaxMember := by
  rw [membersOf, inv.treeOf_eq.2, Option.getD_some, List.map_map] at member
  obtain ⟨entry, present, rfl⟩ := List.mem_map.mp member
  exact (inv.lengths _ (mem_memberEntries.mp (inv.built.entries.mem_iff.mp present)).1).2

theorem length_membersOf (inv : SetInv tree t) : (membersOf tree).length = tree.memberCount := by
  rw [membersOf, inv.treeOf_eq.2, Option.getD_some, List.length_map, List.length_map,
    inv.built.entries.length_eq, memberEntries, length_cells]

end Range

section Text

variable {elements : List Bytes} {cap : Nat}

/-- **A range that fits is printed in full.** -/
theorem fittingText_of_fits (fits : (rangeText elements).length < cap) :
    fittingText elements cap = some (rangeText elements) := by
  have header : (arrayHeader elements.length).length < cap := by
    rw [rangeText, List.length_append] at fits
    omega
  rw [fittingText, formatted, if_neg (Nat.not_le.mpr header), Option.map_some,
    foldl_fitting_of_fits _ _ fits]
  rfl

/-- A printed range is shorter than its buffer. -/
theorem length_fittingText {reply : Bytes} (printed : fittingText elements cap = some reply) :
    arrayHeader elements.length <+: reply ∧ reply.length < cap := by
  obtain ⟨header, isHeader, rfl⟩ := Option.map_eq_some_iff.mp printed
  obtain ⟨short, same⟩ := Option.ite_none_left_eq_some.mp isHeader
  obtain rfl := Option.some.inj same
  exact ⟨front_foldl_fitting _ _, length_foldl_fitting _ _ (Nat.not_le.mp short)⟩

end Text

end Zedis.BTree

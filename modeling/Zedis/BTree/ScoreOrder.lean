/-
**When the walk of `collect_inorder` lists the members in order.**

The order is by score, then by the bytes of the member (`score_member_cmp`). The separators of inner
nodes have no bytes: the descent sends an equal score to the left of a separator, the two places that
split a node send it to the right. So an entry can come to a leaf on the wrong side of entries with
its score, and no later insertion reorders them.

* `TieSafe`: for each entry that a call inserts, the entries with the same score in the leaves before
  its leaf have smaller members, and those in the leaves after it larger ones;
* `increasing_throughout_iff`: every tree of a run lists its members in increasing order exactly if
  every call of the run is `TieSafe`;
* `tied_members_out_of_order`: five members with one score that are listed out of order.
-/

import Zedis.BTree.Reach

namespace Zedis.BTree

open Zedis.Lib Zedis.Lib.LeafTree Zedis.Arena

/-- Member `i` comes before member `j`. -/
def Before (members : Nat → BtreeMember) (i j : Nat) : Prop :=
  scoreMemberCmp (members i).score (members i) (members j).score (members j).data < 0

instance (members : Nat → BtreeMember) : DecidableRel (Before members) := fun i j =>
  inferInstanceAs (Decidable
    (scoreMemberCmp (members i).score (members i) (members j).score (members j).data < 0))

/-- The walk returns and lists the members in strictly increasing order. -/
def Increasing (tree : ZedisBtree) : Prop :=
  ∃ walked, inorder tree = some walked ∧ walked.Pairwise (Before tree.members)

/-! ### The condition -/

/-- The height of the tree under an index. -/
def heightAt (nodes : Nat → BtreeNode) : Nat → Nat → Nat
  | 0, _ => 0
  | fuel + 1, idx => if (nodes idx).isLeaf then 0 else heightAt nodes fuel ((nodes idx).slots 0) + 1

/-- The search tree in the pool. -/
def treeOf (tree : ZedisBtree) : ScoreTrees :=
  match tree.root with
  | none => .empty
  | some root =>
    .root (heightAt tree.nodes tree.maxNodes root)
      (treeAt tree.nodes (heightAt tree.nodes tree.maxNodes root) root)

/-- The leaf that the insertion of `e` reaches is on the right side of the entries with its score. -/
def InsertSafe (members : Nat → BtreeMember) (t : ScoreTrees) (e : Int × Nat) : Prop :=
  (∀ x ∈ (t.spot Prod.fst e).1, x.1 = e.1 → (members x.2).data < (members e.2).data) ∧
    ∀ x ∈ (t.spot Prod.fst e).2.2, x.1 = e.1 → (members e.2).data < (members x.2).data

/-- **No insertion of the call puts an entry on the wrong side of a tie.** A call for a present
member inserts every member into an empty tree, in the order of their indices; a call for a new
member inserts that member; a refused call inserts nothing. -/
def TieSafe (tree : ZedisBtree) (op : BtreeAdd) : Prop :=
  op.member.length ≠ 0 → op.member.length < zedisBtreeMaxMember →
    (∀ i < tree.memberCount, (tree.members i).data = op.member → ∀ n < tree.memberCount,
      InsertSafe (rescored tree.members i op.score) (builtFrom (rescored tree.members i op.score) n)
        ((rescored tree.members i op.score n).score, n)) ∧
    ((∀ i < tree.memberCount, (tree.members i).data ≠ op.member) →
      tree.memberCount < tree.maxMembers →
      InsertSafe (Function.update tree.members tree.memberCount ⟨op.member, op.score⟩) (treeOf tree)
        (op.score, tree.memberCount))

/-! ### The order of the entries of a search tree -/

section Entries

variable {members : Nat → BtreeMember} {t : ScoreTrees} {n : Nat}

/-- The entries are in strictly increasing order. -/
def EntriesIncrease (members : Nat → BtreeMember) (t : ScoreTrees) : Prop :=
  t.entries.Pairwise fun a b => ¬ entryLe members b a

theorem not_entryLe_iff {a b : Int × Nat} (same : a.1 = b.1) :
    ¬ entryLe members b a ↔ (members a.2).data < (members b.2).data := by
  rw [entryLe_iff, not_or, ← List.not_le]
  constructor
  · intro both le
    exact both.2 ⟨same.symm, le⟩
  · intro less
    exact ⟨same.symm.not_lt, fun both => less both.2⟩

theorem before_iff {a b : Int × Nat} (first : a.1 = (members a.2).score)
    (second : b.1 = (members b.2).score) : Before members a.2 b.2 ↔ ¬ entryLe members b a := by
  unfold Before
  rw [← first, ← second]
  by_cases same : a.1 = b.1
  · rw [not_entryLe_iff same, scoreMemberCmp, if_neg (not_not.mpr same), bytesCmp_lt_zero_iff]
  · rw [entryLe_iff, scoreMemberCmp, if_pos same]
    by_cases less : a.1 < b.1
    · rw [if_pos less]
      refine ⟨fun _ => ?_, fun _ => by decide⟩
      rintro (more | both)
      · exact lt_asymm less more
      · exact same both.1.symm
    · rw [if_neg less]
      refine ⟨fun absurd => by omega, fun notLe => (notLe (Or.inl ?_)).elim⟩
      exact lt_of_le_of_ne (not_lt.mp less) (Ne.symm same)

/-- **One insertion** keeps the order exactly if it is safe. -/
theorem entriesIncrease_insert_iff {e : Int × Nat} (sorted : (t.tokens Prod.fst).Pairwise (· ≤ ·))
    (fresh : ∀ x ∈ t.entries, (members x.2).data ≠ (members e.2).data) :
    EntriesIncrease members (t.insert Prod.fst (entryLe members) e) ↔
      EntriesIncrease members t ∧ InsertSafe members t e := by
  have total : ∀ a b, entryLe members a b ∨ entryLe members b a := by
    intro a b
    rw [entryLe_iff, entryLe_iff]
    rcases lt_trichotomy a.1 b.1 with less | same | more
    · exact Or.inl (Or.inl less)
    · exact (List.le_total (members a.2).data (members b.2).data).imp
        (fun le => Or.inr ⟨same, le⟩) fun le => Or.inr ⟨same.symm, le⟩
    · exact Or.inr (Or.inl more)
  have trans : ∀ a b c, entryLe members a b → entryLe members b c → entryLe members a c := by
    intro a b c one two
    rw [entryLe_iff] at one two ⊢
    rcases one with less | one
    · rcases two with less' | two
      · exact Or.inl (less.trans less')
      · exact Or.inl (two.1 ▸ less)
    · rcases two with less' | two
      · exact Or.inl (one.1 ▸ less')
      · exact Or.inr ⟨one.1.trans two.1, List.le_trans one.2 two.2⟩
  have apart : ∀ x ∈ t.entries, ¬ (entryLe members e x ∧ entryLe members x e) := by
    rintro x present ⟨one, two⟩
    rw [entryLe_iff] at one two
    rcases one with less | one
    · rcases two with less' | two
      · exact lt_asymm less less'
      · exact less.ne two.1.symm
    · rcases two with less' | two
      · exact less'.ne one.1.symm
      · exact fresh x present (List.le_antisymm two.2 one.2)
  have law := RootedTree.pairwise_entries_insert_iff (refines_entryLe members) total trans t e sorted
    apart
  refine law.trans (and_congr_right fun _ => and_congr ?_ ?_)
  · exact forall₃_congr fun x _ same => not_entryLe_iff same
  · exact forall₃_congr fun x _ same => not_entryLe_iff same.symm

theorem builtFrom_sorted (members : Nat → BtreeMember) (n : Nat) :
    ((builtFrom members n).tokens Prod.fst).Pairwise (· ≤ ·) ∧
      (builtFrom members n).entries.Perm (memberEntries members n) := by
  induction n with
  | zero => exact ⟨List.Pairwise.nil, List.Perm.refl _⟩
  | succ n ih =>
    rw [builtFrom_succ, memberEntries_succ]
    refine ⟨RootedTree.pairwise_tokens_insert (refines_entryLe members) _ _ ih.1, ?_⟩
    refine (RootedTree.perm_entries_insert _ _).trans ((ih.2.cons _).trans ?_)
    exact (List.perm_append_singleton _ _).symm

/-- **A rebuild** leaves the entries in order exactly if each of its insertions is safe. -/
theorem entriesIncrease_builtFrom_iff
    (distinct : ∀ i < n, ∀ j < n, (members i).data = (members j).data → i = j) :
    EntriesIncrease members (builtFrom members n) ↔
      ∀ k < n, InsertSafe members (builtFrom members k) ((members k).score, k) := by
  induction n with
  | zero => exact ⟨nofun, fun _ => List.Pairwise.nil⟩
  | succ n ih =>
    have built := builtFrom_sorted members n
    rw [builtFrom_succ, entriesIncrease_insert_iff built.1, ih]
    · rw [Nat.forall_lt_succ_right]
    · exact fun i below j below' => distinct i (by omega) j (by omega)
    · intro x present same
      have below := (mem_memberEntries.mp (built.2.mem_iff.mp present)).1
      exact below.ne (distinct x.2 (by omega) n (by omega) same)

end Entries

/-! ### One call -/

section Step

variable {tree : ZedisBtree} {t : ScoreTrees}

theorem heightAt_eq (h : Nat) : ∀ fuel idx, h < fuel → ShapeAt tree.nodes h idx →
    heightAt tree.nodes fuel idx = h := by
  induction h with
  | zero =>
    intro fuel idx enough shape
    obtain ⟨fuel, rfl⟩ : ∃ n, fuel = n + 1 := ⟨fuel - 1, by omega⟩
    exact if_pos shape
  | succ h ih =>
    intro fuel idx enough shape
    obtain ⟨fuel, rfl⟩ : ∃ n, fuel = n + 1 := ⟨fuel - 1, by omega⟩
    have first : (tree.nodes idx).slots 0 ∈ (row (tree.nodes idx)).items := by
      rw [items_row, mem_cells]
      exact ⟨0, Nat.succ_pos _, rfl⟩
    rw [heightAt, if_neg (by rw [shape.1]; exact Bool.false_ne_true),
      ih fuel _ (by omega) (shape.2 _ first)]

/-- The pool determines its search tree and the walk over it. -/
theorem SetInv.treeOf_eq (inv : SetInv tree t) :
    treeOf tree = t ∧ inorder tree = some (t.entries.map Prod.snd) := by
  have small := inv.size_le
  have stored := inv.built.stored
  cases t with
  | empty =>
    rw [treeOf, inorder, stored.1]
    exact ⟨rfl, rfl⟩
  | root h t =>
    obtain ⟨root, isRoot, rooted, rfl, -⟩ := stored
    have high := (height_lt_size h (treeAt tree.nodes h root)).trans_le small
    have height : ∀ k, k = h → (.root k (treeAt tree.nodes k root) : ScoreTrees) =
        .root h (treeAt tree.nodes h root) := by
      rintro k rfl
      rfl
    rw [treeOf, inorder, isRoot]
    refine ⟨height _ (heightAt_eq h tree.maxNodes root high rooted.shape), ?_⟩
    rw [RootedTree.entries, ← membersAt_eq]
    exact inorderAt_eq h tree.maxNodes root high rooted.shape

/-- **`collect_inorder` collects the members in the order of the walk.** -/
theorem SetInv.collectInorder_inorder (inv : SetInv tree t) {root : Nat}
    (isRoot : tree.root = some root) (start stop : Int) (replyCap : Nat) (state : Int × Bytes) :
    collectInorder tree start stop replyCap tree.maxNodes state root =
      (inorder tree).map fun walked => walked.foldl (collectMember tree start stop replyCap) state := by
  have small := inv.size_le
  have stored := inv.built.stored
  cases t with
  | empty => cases isRoot.symm.trans stored.1
  | root h t =>
    obtain ⟨root', isRoot', rooted, rfl, -⟩ := stored
    cases isRoot.symm.trans isRoot'
    have high := (height_lt_size h (treeAt tree.nodes h root)).trans_le small
    rw [inorder, isRoot, collectInorder_eq start stop replyCap h _ _ _ high rooted.shape]
    simp only [inorderAt_eq h _ _ high rooted.shape, Option.map_some]

theorem SetInv.increasing_iff (inv : SetInv tree t) :
    Increasing tree ↔ EntriesIncrease tree.members t := by
  have scores : ∀ x ∈ t.entries, x.1 = (tree.members x.2).score := fun x present =>
    (mem_memberEntries.mp (inv.built.entries.mem_iff.mp present)).2
  have same : (t.entries.map Prod.snd).Pairwise (Before tree.members) ↔
      EntriesIncrease tree.members t := by
    rw [List.pairwise_map]
    exact List.Pairwise.iff_of_mem fun first second =>
      before_iff (scores _ first) (scores _ second)
  rw [← same]
  unfold Increasing
  rw [inv.treeOf_eq.2]
  exact ⟨fun ⟨walked, found, sorted⟩ => Option.some.inj found ▸ sorted, fun sorted => ⟨_, rfl, sorted⟩⟩

/-- **A call keeps the order exactly if it is `TieSafe`.** -/
theorem increasing_step_iff (inv : SetInv tree t) (sorted : Increasing tree) {op : BtreeAdd}
    {next : ZedisBtree} (taken : btreeStep tree op = some next) :
    Increasing next ↔ TieSafe tree op := by
  obtain ⟨rc, after, t', ends, result, kept⟩ := zedisBtreeAdd_cases inv op
  rw [btreeStep, ends] at taken
  cases taken
  rw [kept.increasing_iff]
  rw [inv.increasing_iff] at sorted
  cases result with
  | refused reason =>
    refine ⟨fun _ nonempty short => ?_, fun _ => sorted⟩
    have full := (reason.resolve_left nonempty).resolve_left short.not_ge
    exact ⟨fun i below same => (full.1 i below same).elim, fun _ room => (room.ne full.2).elim⟩
  | updated i _ nonempty short below same rest =>
    have members : after.members = rescored tree.members i op.score := by rw [rest]
    have data := rescored_data tree.members i op.score
    rw [members, entriesIncrease_builtFrom_iff fun j within k within' equal =>
      inv.distinct j within k within' (by rwa [data, data] at equal)]
    constructor
    · intro safe _ _
      refine ⟨fun j within same' => ?_, fun absent _ => (absent i below same).elim⟩
      rw [inv.distinct j within i below (same'.trans same.symm)]
      exact safe
    · exact fun safe => (safe nonempty short).1 i below same
  | added _ nonempty short absent room rest =>
    have members : after.members =
        Function.update tree.members tree.memberCount ⟨op.member, op.score⟩ := by rw [rest]
    have within : ∀ x ∈ t.entries, after.members x.2 = tree.members x.2 := fun x present => by
      have below := (mem_memberEntries.mp (inv.built.entries.mem_iff.mp present)).1
      rw [members, Function.update_of_ne below.ne]
    have old : EntriesIncrease after.members t := by
      refine List.Pairwise.imp_of_mem (fun {a b} first second notLe => ?_) sorted
      rw [entryLe_iff, within a first, within b second, ← entryLe_iff]
      exact notLe
    rw [entriesIncrease_insert_iff inv.built.sorted fun x present => ?_]
    · rw [TieSafe, inv.treeOf_eq.1, ← members]
      constructor
      · intro both _ _
        exact ⟨fun i below same => (absent i below same).elim, fun _ _ => both.2⟩
      · exact fun safe => ⟨old, (safe nonempty short).2 absent room⟩
    · have below := (mem_memberEntries.mp (inv.built.entries.mem_iff.mp present)).1
      rw [within x present, members, Function.update_self]
      exact absent x.2 below

/-- **The members are listed in order in every tree of a run exactly if every call of the run is
`TieSafe`.** -/
theorem increasing_throughout_iff {arena arena' : ZedisArena} {maxMembers : Nat}
    {start last : ZedisBtree} (made : zedisBtreeInit arena maxMembers = some (start, arena'))
    {ops : List BtreeAdd} (run : Run btreeStep Always start ops last) :
    (∀ n middle, Run btreeStep Always start (ops.take n) middle → Increasing middle) ↔
      Run btreeStep TieSafe start ops last := by
  have inv := (zedisBtreeInit_inv made).1
  refine run.throughout_iff (fun tree => ∃ t, SetInv tree t) Increasing ?_ ?_ ⟨_, inv⟩
    (inv.increasing_iff.mpr List.Pairwise.nil)
  · exact fun tree op next inv _ taken => btreeStep_inv inv taken
  · exact fun tree op next ⟨t, inv⟩ sorted taken => increasing_step_iff inv sorted taken

end Step

/-! ### Five members with one score -/

/-- The members `a`, `b`, `c`, `d` and `e`, all with score `0`. -/
def tiedAdds : List BtreeAdd := [⟨0, [97]⟩, ⟨0, [98]⟩, ⟨0, [99]⟩, ⟨0, [100]⟩, ⟨0, [101]⟩]

/-- Whether a new tree lists its members in order after the calls. -/
def ordersTies (ops : List BtreeAdd) : Option Bool :=
  (sampleTree 8 ops).bind fun tree => (inorder tree).map fun walked =>
    decide (walked.Pairwise (Before tree.members))

/-- The first four calls are safe. -/
theorem increasing_throughout_iff_tied : ∃ start arena' last,
    zedisBtreeInit ⟨2 ^ 20, 0⟩ 8 = some (start, arena') ∧
      Run btreeStep Always start (tiedAdds.take 4) last ∧
      Run btreeStep TieSafe start (tiedAdds.take 4) last := by
  obtain ⟨last, returned⟩ := Option.isSome_iff_exists.mp
    (show (sampleTree 8 (tiedAdds.take 4)).isSome by decide +kernel)
  obtain ⟨⟨start, arena'⟩, made, replayed⟩ := Option.bind_eq_some_iff.mp returned
  have run : Run btreeStep Always start (tiedAdds.take 4) last :=
    Run.of_replay (fun _ _ _ => trivial) replayed
  refine ⟨start, arena', last, made, run, (increasing_throughout_iff made run).mp ?_⟩
  intro n middle part
  have orders : ∀ n < 5, ordersTies ((tiedAdds.take 4).take n) = some true := by decide +kernel
  have sorted : ordersTies ((tiedAdds.take 4).take n) = some true := by
    by_cases short : n < 5
    · exact orders n short
    · have all : (tiedAdds.take 4).take n = (tiedAdds.take 4).take 4 := by
        rw [List.take_take, List.take_take, min_eq_right (by omega), min_self]
      rw [all]
      exact orders 4 (by decide)
  rw [ordersTies, sampleTree, made, Option.bind_some, part.replay_eq, Option.bind_some] at sorted
  obtain ⟨walked, found, sorted⟩ := Option.map_eq_some_iff.mp sorted
  exact ⟨walked, found, of_decide_eq_true sorted⟩

/-- **The fifth member is listed before the third.** The fourth call splits the leaf into `a`, `b` and
`c`, `d`; the descent of the fifth then goes to the left of the separator `0`. -/
theorem tied_members_out_of_order : ¬ ∀ tree, Reachable tree → Increasing tree := by
  intro increasing
  have walks : ordersTies tiedAdds = some false := by decide +kernel
  obtain ⟨tree, returned, walks⟩ := Option.bind_eq_some_iff.mp walks
  obtain ⟨walked, found, unsorted⟩ := Option.map_eq_some_iff.mp walks
  obtain ⟨walked', found', sorted⟩ := increasing tree (reachable_sampleTree returned)
  rw [found] at found'
  cases found'
  exact of_decide_eq_false unsorted sorted

end Zedis.BTree

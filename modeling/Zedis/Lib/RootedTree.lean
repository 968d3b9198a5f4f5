/-
**Search trees of any height.**

A `RootedTree` is empty or a `LeafTree` of some height. `insert` splits a full root first, which is
the insertion into the row of the one item that the old root is, so the tree grows at its root and
all its leaves stay at one depth. The facts about `LeafTree.ins` carry over.
-/

import Zedis.Lib.LeafTree

namespace Zedis.Lib

open LeafTree

variable {K E : Type}

/-- A tree is at least as large as it is high. -/
theorem LeafTree.height_lt_size (h : Nat) : ∀ t : LeafTree K E h, h < t.size h := by
  induction h with
  | zero =>
    intro es
    exact Nat.zero_lt_one
  | succ h ih =>
    intro row
    have last := ih (Fenced.last row)
    simp only [LeafTree.size, Fenced.items, List.map_append, List.map_cons, List.map_nil,
      List.sum_append, List.sum_cons, List.sum_nil]
    omega

/-- A tree of any height. -/
inductive RootedTree (K E : Type)
  | empty
  | root (h : Nat) (t : LeafTree K E h)

namespace RootedTree

def entries : RootedTree K E → List E
  | empty => []
  | root h t => t.entries h

def tokens (key : E → K) : RootedTree K E → List K
  | empty => []
  | root h t => t.tokens key h

def size : RootedTree K E → Nat
  | empty => 0
  | root h t => t.size h

def Filled : RootedTree K E → Prop
  | empty => True
  | root h t => t.Filled h

/-- **Insertion**, with a full root split first. -/
def insert [LinearOrder K] (key : E → K) (le : E → E → Prop) [DecidableRel le] :
    RootedTree K E → E → RootedTree K E
  | empty, e => root 0 [e]
  | root h t, e =>
    match t.split key h with
    | none => root h (ins key le h t e)
    | some _ => root (h + 1) (ins key le (h + 1) (.single t) e)

/-- The entries before the leaf an insertion reaches, those of that leaf, and those after it. -/
def spot [LinearOrder K] (key : E → K) : RootedTree K E → E → List E × List E × List E
  | empty, _ => ([], [], [])
  | root h t, e =>
    match t.split key h with
    | none => LeafTree.spot key h t e
    | some _ => LeafTree.spot key (h + 1) (.single t) e

section Single

variable {h : Nat} (t : LeafTree K E h)

theorem entries_single : LeafTree.entries (h + 1) (.single t) = LeafTree.entries h t :=
  Fenced.weave_single _ _ t

theorem tokens_single (key : E → K) :
    LeafTree.tokens key (h + 1) (.single t) = LeafTree.tokens key h t :=
  Fenced.weave_single _ _ t

end Single

/-- **A filled tree has fewer than two nodes for each entry.** -/
theorem size_le (tree : RootedTree K E) (filled : tree.Filled) :
    tree.size ≤ 2 * tree.entries.length - 1 := by
  cases tree with
  | empty => exact Nat.le_refl _
  | root h t =>
    have bound := size_lt_entries h t filled
    simp only [size, entries]
    omega

variable [LinearOrder K] {key : E → K} {le : E → E → Prop} [DecidableRel le]

/-- The ways of an insertion at a full root. -/
theorem route_single {h : Nat} {t l r : LeafTree K E h} {p s : K}
    (halves : t.split key h = some (l, p, r)) :
    Fenced.route (LeafTree.split key h) s (.single t) =
      if p ≤ s then (r, (⟨[], none⟩ : Hole K _).pushLeft l p)
      else (l, (⟨[], none⟩ : Hole K _).pushRight p r) := by
  simp only [Fenced.route, Fenced.single, Fenced.seek, List.dropWhile_nil, List.takeWhile_nil, halves]

/-- A root split takes two nodes. -/
theorem size_ins_single (le : E → E → Prop) [DecidableRel le] (e : E) {h : Nat}
    {t l r : LeafTree K E h} {p : K} (halves : t.split key h = some (l, p, r)) :
    t.size h + 2 ≤ LeafTree.size (h + 1) (ins key le (h + 1) (.single t) e) := by
  have routed := size_route key h (.single t) (key e)
  have grows := size_le_ins key le h (Fenced.route (LeafTree.split key h) (key e) (.single t)).1 e
  have whole : LeafTree.size (h + 1) (.single t) = 1 + t.size h := by
    simp [LeafTree.size, Fenced.items, Fenced.single]
  change _ = _ + if (t.split key h).isSome then 1 else 0 at routed
  rw [halves, Option.isSome_some, if_pos rfl] at routed
  rw [ins_of_route le e Prod.mk.eta.symm, size_fill]
  omega

/-- **Insertion keeps one to three keys in every node.** -/
theorem insert_filled (key : E → K) (le : E → E → Prop) [DecidableRel le] (tree : RootedTree K E)
    (e : E) (filled : tree.Filled) :
    (tree.insert key le e).Filled := by
  cases tree with
  | empty => exact ⟨Nat.le_refl 1, show 1 ≤ 3 by decide⟩
  | root h t =>
    simp only [insert]
    cases halves : t.split key h with
    | none => exact ins_filled h t e filled halves
    | some parts =>
      obtain ⟨l, p, r⟩ := parts
      obtain ⟨leftFilled, rightFilled⟩ := filled_split halves filled
      obtain ⟨leftFree, rightFree⟩ := split_split halves
      have routed := route_single (s := key e) halves
      by_cases up : p ≤ key e
      · rw [if_pos up] at routed
        simp only [ins_of_route le e routed]
        refine ⟨Nat.le_refl 1, show 1 ≤ 3 by decide, ?_⟩
        simp only [Hole.pushLeft, Hole.fill, Fenced.items, Fenced.single, List.nil_append,
          List.append_nil, List.map_cons, List.map_nil, List.cons_append, List.forall_mem_cons,
          List.not_mem_nil, false_implies, implies_true, and_true]
        exact ⟨leftFilled, ins_filled h r e rightFilled rightFree⟩
      · rw [if_neg up] at routed
        simp only [ins_of_route le e routed]
        refine ⟨Nat.le_refl 1, show 1 ≤ 3 by decide, ?_⟩
        simp only [Hole.pushRight, Hole.fill, Fenced.items, Fenced.single, List.nil_append,
          List.map_cons, List.map_nil, List.cons_append, List.forall_mem_cons,
          List.not_mem_nil, false_implies, implies_true, and_true]
        exact ⟨ins_filled h l e leftFilled leftFree, rightFilled⟩

/-- **An insertion takes fewer than two nodes for each entry that was there before**, or the first one. -/
theorem size_insert_le (key : E → K) (le : E → E → Prop) [DecidableRel le] (tree : RootedTree K E)
    (e : E) (filled : tree.Filled) :
    (tree.insert key le e).size ≤ max 1 (2 * tree.entries.length - 1) := by
  cases tree with
  | empty => exact Nat.le_refl 1
  | root h t =>
    simp only [insert, entries]
    cases halves : t.split key h with
    | none =>
      have bound : (ins key le h t e).size h + 1 ≤ 2 * (t.entries h).length :=
        size_ins_lt le e h t filled
      simp only [size]
      omega
    | some parts =>
      obtain ⟨l, p, r⟩ := parts
      obtain ⟨leftFilled, rightFilled⟩ := filled_split halves filled
      have routed := route_single (s := key e) halves
      rw [← entries_single t]
      simp only [size]
      by_cases up : p ≤ key e
      · rw [if_pos up] at routed
        have bound := size_ins_row le e routed (size_ins_lt le e h r rightFilled)
          (fun t member => List.mem_singleton.mp member ▸ leftFilled) (Nat.le_refl 1)
        omega
      · rw [if_neg up] at routed
        have bound := size_ins_row le e routed (size_ins_lt le e h l leftFilled)
          (fun t member => List.mem_singleton.mp member ▸ rightFilled) (Nat.le_refl 1)
        omega

/-- **Insertion keeps the tokens sorted.** -/
theorem pairwise_tokens_insert (refines : Refines key le) (tree : RootedTree K E) (e : E)
    (sorted : (tree.tokens key).Pairwise (· ≤ ·)) :
    ((tree.insert key le e).tokens key).Pairwise (· ≤ ·) := by
  cases tree with
  | empty => exact List.pairwise_singleton _ _
  | root h t =>
    simp only [insert]
    cases t.split key h with
    | none => exact (tokens_ins refines h t e sorted).1
    | some parts =>
      refine (tokens_ins refines (h + 1) (.single t) e ?_).1
      rw [tokens_single]
      exact sorted

/-- **Insertion adds its entry.** -/
theorem perm_entries_insert (tree : RootedTree K E) (e : E) :
    (tree.insert key le e).entries.Perm (e :: tree.entries) := by
  cases tree with
  | empty => exact List.Perm.refl _
  | root h t =>
    simp only [insert]
    cases t.split key h with
    | none => exact perm_entries_ins h t e
    | some parts =>
      refine (perm_entries_ins (h + 1) (.single t) e).trans ?_
      rw [entries_single]
      exact List.Perm.refl _

/-- **When an insertion keeps the entries strictly ordered.** -/
theorem pairwise_entries_insert_iff (refines : Refines key le) (total : ∀ a b, le a b ∨ le b a)
    (trans : ∀ a b c, le a b → le b c → le a c) (tree : RootedTree K E) (e : E)
    (tokensSorted : (tree.tokens key).Pairwise (· ≤ ·))
    (fresh : ∀ x ∈ tree.entries, ¬ (le e x ∧ le x e)) :
    (tree.insert key le e).entries.Pairwise (fun a b => ¬ le b a) ↔
      tree.entries.Pairwise (fun a b => ¬ le b a) ∧
      (∀ x ∈ (tree.spot key e).1, key x = key e → ¬ le e x) ∧
        ∀ x ∈ (tree.spot key e).2.2, key x = key e → ¬ le x e := by
  cases tree with
  | empty =>
    simp [insert, entries, spot, LeafTree.entries]
  | root h t =>
    simp only [insert, spot]
    cases t.split key h with
    | none => exact pairwise_entries_ins_iff refines total trans h t e tokensSorted fresh
    | some parts =>
      have row := pairwise_entries_ins_iff refines total trans (h + 1) (.single t) e
      rw [entries_single, tokens_single] at row
      exact row tokensSorted fresh

end RootedTree

end Zedis.Lib

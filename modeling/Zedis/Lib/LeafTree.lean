/-
**Leaf-oriented search trees with up to three keys in a node.**

A tree of height `h` keeps its entries in leaves that all stand at depth `h`; an inner node is a
row of subtrees with separator keys between them (`Fenced`). `ins` inserts from the top: a full node
on the way is split before the walk enters it, with ties at the separator going to the right half,
and the entry is put into a leaf by the order `le` of the entries. The walk itself compares keys
only.

* `Filled`: every node has one to three keys; kept by `ins_filled`;
* `tokens`: the keys of the entries and the separators, from left to right; sorted along `ins`
  (`tokens_ins`), which is the search-tree order with separators that may tie;
* `entries_ins`: the entries after an insertion, around the leaf it reaches (`spot`), and
  `pairwise_entries_ins_iff`: they stay strictly ordered exactly when the entries outside that leaf
  that tie with the new key stand on the right side;
* `size`: the number of nodes, less than twice the number of entries (`size_lt_entries`), and still so
  for the entries before an insertion and the nodes after it (`size_ins_lt`).
-/

import Zedis.Lib.Fenced
import Mathlib.Data.List.Sort
import Mathlib.Order.Basic
import Mathlib.Algebra.BigOperators.Group.List.Basic
import Mathlib.Algebra.Ring.Nat

namespace Zedis.Lib

variable {K E T : Type}

/-- The trees of a height. -/
def LeafTree (K E : Type) : Nat → Type
  | 0 => List E
  | h + 1 => Fenced K (LeafTree K E h)

/-- The halves of a full row, and the fence between them. -/
def Fenced.split : Fenced K T → Option (Fenced K T × K × Fenced K T)
  | ⟨[(t₀, k₀), (t₁, k₁), (t₂, k₂)], t₃⟩ => some (⟨[(t₀, k₀)], t₁⟩, k₁, ⟨[(t₂, k₂)], t₃⟩)
  | _ => none

/-- The halves of a full leaf, and the key of its third entry. -/
def splitEntries (key : E → K) : List E → Option (List E × K × List E)
  | [a, b, c] => some ([a, b], key c, [c])
  | _ => none

/-- The item an insertion enters, split first if it is full, and the row around it. -/
def Fenced.route [LinearOrder K] (split : T → Option (T × K × T)) (s : K) (row : Fenced K T) :
    T × Hole K T :=
  let (t, hole) := row.seek fun k => k < s
  match split t with
  | none => (t, hole)
  | some (l, p, r) => if p ≤ s then (r, hole.pushLeft l p) else (l, hole.pushRight p r)

namespace LeafTree

/-- The entries, from left to right. -/
def entries : (h : Nat) → LeafTree K E h → List E
  | 0, es => es
  | h + 1, row => Fenced.weave (entries h) (fun _ => []) row

/-- The keys of the entries and the separators, from left to right. -/
def tokens (key : E → K) : (h : Nat) → LeafTree K E h → List K
  | 0, es => List.map key es
  | h + 1, row => Fenced.weave (tokens key h) (fun k => [k]) row

/-- The number of nodes. -/
def size : (h : Nat) → LeafTree K E h → Nat
  | 0, _ => 1
  | h + 1, row => 1 + ((Fenced.items row).map (size h)).sum

/-- Every node has one to three keys. -/
def Filled : (h : Nat) → LeafTree K E h → Prop
  | 0, es => 1 ≤ List.length es ∧ List.length es ≤ 3
  | h + 1, row => 1 ≤ (Fenced.kids row).length ∧ (Fenced.kids row).length ≤ 3 ∧
      ∀ t ∈ Fenced.items row, Filled h t

/-- The halves of a full tree, and the key between them. -/
def split (key : E → K) : (h : Nat) → LeafTree K E h → Option (LeafTree K E h × K × LeafTree K E h)
  | 0, es => splitEntries key es
  | _ + 1, row => Fenced.split row

/-- **Insertion into a tree that is not full.** -/
def ins [LinearOrder K] (key : E → K) (le : E → E → Prop) [DecidableRel le] :
    (h : Nat) → LeafTree K E h → E → LeafTree K E h
  | 0, es, e => List.orderedInsert le e es
  | h + 1, row, e =>
    let found := Fenced.route (split key h) (key e) row
    found.2.fill (.single (ins key le h found.1 e))

/-- The entries before the leaf an insertion reaches, those of that leaf, and those after it. -/
def spot [LinearOrder K] (key : E → K) :
    (h : Nat) → LeafTree K E h → E → List E × List E × List E
  | 0, es, _ => ([], es, [])
  | h + 1, row, e =>
    let found := Fenced.route (split key h) (key e) row
    let (before, leaf, after) := spot key h found.1 e
    (found.2.weaveLeft (entries h) (fun _ => []) ++ before, leaf,
      after ++ found.2.weaveRight (entries h) fun _ => [])

end LeafTree

/-! ### Splitting -/

section Split

variable {key : E → K}

theorem Fenced.split_eq_some {row l r : Fenced K T} {p : K} (halves : row.split = some (l, p, r)) :
    ∃ t₀ k₀ t₁ t₂ k₂ t₃, row = ⟨[(t₀, k₀), (t₁, p), (t₂, k₂)], t₃⟩ ∧ l = ⟨[(t₀, k₀)], t₁⟩ ∧
      r = ⟨[(t₂, k₂)], t₃⟩ := by
  unfold Fenced.split at halves
  split at halves
  · cases halves
    exact ⟨_, _, _, _, _, _, rfl, rfl, rfl⟩
  · cases halves

theorem splitEntries_eq_some {es l r : List E} {p : K} (halves : splitEntries key es = some (l, p, r)) :
    ∃ a b c, es = [a, b, c] ∧ l = [a, b] ∧ r = [c] ∧ p = key c := by
  unfold splitEntries at halves
  split at halves
  · cases halves
    exact ⟨_, _, _, rfl, rfl, rfl, rfl⟩
  · cases halves

theorem Fenced.split_eq_none {row : Fenced K T} (three : row.kids.length ≤ 3) :
    row.split = none ↔ row.kids.length ≤ 2 := by
  obtain ⟨kids, last⟩ := row
  match kids with
  | [] => simp [Fenced.split]
  | [_] => simp [Fenced.split]
  | [_, _] => simp [Fenced.split]
  | [_, _, _] => simp [Fenced.split]
  | _ :: _ :: _ :: _ :: _ =>
    simp only [List.length_cons] at three
    omega

theorem splitEntries_eq_none {es : List E} (three : es.length ≤ 3) :
    splitEntries key es = none ↔ es.length ≤ 2 := by
  match es with
  | [] => simp [splitEntries]
  | [_] => simp [splitEntries]
  | [_, _] => simp [splitEntries]
  | [_, _, _] => simp [splitEntries]
  | _ :: _ :: _ :: _ :: _ =>
    simp only [List.length_cons] at three
    omega

end Split

namespace LeafTree

section Halves

variable {key : E → K} {h : Nat} {t l r : LeafTree K E h} {p : K}

theorem entries_split (halves : split key h t = some (l, p, r)) :
    entries h t = entries h l ++ entries h r := by
  cases h with
  | zero =>
    obtain ⟨a, b, c, rfl, rfl, rfl, -⟩ := splitEntries_eq_some halves
    rfl
  | succ h =>
    obtain ⟨t₀, k₀, t₁, t₂, k₂, t₃, rfl, rfl, rfl⟩ := Fenced.split_eq_some halves
    simp [entries, Fenced.weave]

/-- The tokens of the halves and the separator are those of the tree, or repeat one of them. -/
theorem mem_tokens_split (halves : split key h t = some (l, p, r)) :
    ∀ x ∈ tokens key h l ++ p :: tokens key h r, x ∈ tokens key h t := by
  cases h with
  | zero =>
    obtain ⟨a, b, c, rfl, rfl, rfl, rfl⟩ := splitEntries_eq_some halves
    simp [tokens]
  | succ h =>
    obtain ⟨t₀, k₀, t₁, t₂, k₂, t₃, rfl, rfl, rfl⟩ := Fenced.split_eq_some halves
    simp [tokens, Fenced.weave]

theorem pairwise_tokens_split [Preorder K] (halves : split key h t = some (l, p, r))
    (sorted : (tokens key h t).Pairwise (· ≤ ·)) :
    (tokens key h l ++ p :: tokens key h r).Pairwise (· ≤ ·) := by
  cases h with
  | zero =>
    obtain ⟨a, b, c, rfl, rfl, rfl, rfl⟩ := splitEntries_eq_some halves
    simp only [tokens, List.map_cons, List.map_nil, List.pairwise_cons, List.mem_cons,
      List.not_mem_nil, or_false, List.cons_append, List.nil_append] at sorted ⊢
    simpa using sorted
  | succ h =>
    obtain ⟨t₀, k₀, t₁, t₂, k₂, t₃, rfl, rfl, rfl⟩ := Fenced.split_eq_some halves
    simpa [tokens, Fenced.weave] using sorted

theorem filled_split (halves : split key h t = some (l, p, r)) (filled : Filled h t) :
    Filled h l ∧ Filled h r := by
  cases h with
  | zero =>
    obtain ⟨a, b, c, rfl, rfl, rfl, rfl⟩ := splitEntries_eq_some halves
    simp [Filled]
  | succ h =>
    obtain ⟨t₀, k₀, t₁, t₂, k₂, t₃, rfl, rfl, rfl⟩ := Fenced.split_eq_some halves
    obtain ⟨-, -, all⟩ := filled
    simp only [Fenced.items, List.map_cons, List.map_nil, List.cons_append, List.nil_append,
      List.mem_cons, List.not_mem_nil, or_false] at all
    simp [Filled, Fenced.items, all]

theorem split_split (halves : split key h t = some (l, p, r)) :
    split key h l = none ∧ split key h r = none := by
  cases h with
  | zero =>
    obtain ⟨a, b, c, rfl, rfl, rfl, rfl⟩ := splitEntries_eq_some halves
    exact ⟨rfl, rfl⟩
  | succ h =>
    obtain ⟨t₀, k₀, t₁, t₂, k₂, t₃, rfl, rfl, rfl⟩ := Fenced.split_eq_some halves
    exact ⟨rfl, rfl⟩

theorem size_split (halves : split key h t = some (l, p, r)) :
    size h l + size h r = size h t + 1 := by
  cases h with
  | zero =>
    obtain ⟨a, b, c, rfl, rfl, rfl, rfl⟩ := splitEntries_eq_some halves
    rfl
  | succ h =>
    obtain ⟨t₀, k₀, t₁, t₂, k₂, t₃, rfl, rfl, rfl⟩ := Fenced.split_eq_some halves
    simp only [size, Fenced.items, List.map_cons, List.map_nil, List.cons_append, List.nil_append,
      List.sum_cons, List.sum_nil]
    omega

end Halves

end LeafTree

/-! ### The way of an insertion -/

section Route

variable [LinearOrder K] (split : T → Option (T × K × T)) (s : K) (row : Fenced K T)

/-- **The three ways**: into an item that is not full, or into a half of a full one. -/
theorem Fenced.route_cases :
    (split (row.seek fun k => k < s).1 = none ∧ row.route split s = row.seek fun k => k < s) ∨
    ∃ l p r, split (row.seek fun k => k < s).1 = some (l, p, r) ∧
      (p ≤ s ∧ row.route split s = (r, (row.seek fun k => k < s).2.pushLeft l p) ∨
        s < p ∧ row.route split s = (l, (row.seek fun k => k < s).2.pushRight p r)) := by
  unfold Fenced.route
  obtain ⟨t, hole⟩ := row.seek fun k => k < s
  cases halves : split t with
  | none => exact Or.inl ⟨rfl, by simp only [halves]⟩
  | some parts =>
    obtain ⟨l, p, r⟩ := parts
    refine Or.inr ⟨l, p, r, rfl, ?_⟩
    by_cases right : p ≤ s
    · exact Or.inl ⟨right, by simp only [halves, if_pos right]⟩
    · exact Or.inr ⟨not_le.mp right, by simp only [halves, if_neg right]⟩

/-- What is read off the items alone is not changed by the split. -/
theorem Fenced.weave_route {X : Type} (item : T → List X)
    (halve : ∀ t l p r, split t = some (l, p, r) → item t = item l ++ item r) :
    (row.route split s).2.weaveLeft item (fun _ => []) ++ item (row.route split s).1 ++
      (row.route split s).2.weaveRight item (fun _ => []) = row.weave item fun _ => [] := by
  have whole := Hole.weave_fill item (fun _ => []) (row.seek fun k => k < s).2
    (.single (row.seek fun k => k < s).1)
  rw [Fenced.seek_fill, Fenced.weave_single] at whole
  rcases row.route_cases split s with ⟨-, same⟩ | ⟨l, p, r, halves, ⟨-, same⟩ | ⟨-, same⟩⟩
  · rw [same, whole]
  · rw [same, whole, halve _ l p r halves]
    simp
  · rw [same, whole, halve _ l p r halves]
    simp

/-- What holds of every item, and of the halves of an item it holds of, holds after the split. -/
theorem Fenced.route_items {P : T → Prop}
    (halve : ∀ t l p r, split t = some (l, p, r) → P t → P l ∧ P r) (all : ∀ t ∈ row.items, P t) :
    P (row.route split s).1 ∧ ∀ t ∈ (row.route split s).2.items, P t := by
  have parts := (row.seek fun k => k < s).2.items_fill (row.seek fun k => k < s).1
  rw [Fenced.seek_fill] at parts
  have target := all _ (parts.mem_iff.mpr List.mem_cons_self)
  have others : ∀ t ∈ (row.seek fun k => k < s).2.items, P t := fun t member =>
    all t (parts.mem_iff.mpr (List.mem_cons_of_mem _ member))
  rcases row.route_cases split s with ⟨-, same⟩ | ⟨l, p, r, halves, ⟨-, same⟩ | ⟨-, same⟩⟩
  · rw [same]
    exact ⟨target, others⟩
  · obtain ⟨left, right⟩ := halve _ l p r halves target
    rw [same]
    refine ⟨right, fun t member => ?_⟩
    rcases List.mem_cons.mp ((Hole.items_pushLeft _ l p).mem_iff.mp member) with rfl | old
    · exact left
    · exact others t old
  · obtain ⟨left, right⟩ := halve _ l p r halves target
    rw [same]
    refine ⟨left, fun t member => ?_⟩
    rcases List.mem_cons.mp ((Hole.items_pushRight _ p r).mem_iff.mp member) with rfl | old
    · exact right
    · exact others t old

/-- The item entered is not full. -/
theorem Fenced.split_route
    (halve : ∀ t l p r, split t = some (l, p, r) → split l = none ∧ split r = none) :
    split (row.route split s).1 = none := by
  rcases row.route_cases split s with ⟨whole, same⟩ | ⟨l, p, r, halves, ⟨-, same⟩ | ⟨-, same⟩⟩
  · rw [same, whole]
  · rw [same]
    exact (halve _ l p r halves).2
  · rw [same]
    exact (halve _ l p r halves).1

/-- The split adds at most one item. -/
theorem Fenced.route_length :
    row.kids.length ≤ (row.route split s).2.items.length ∧
      (row.route split s).2.items.length ≤ row.kids.length + 1 := by
  have whole := (row.seek fun k => k < s).2.fill_kids_length (row.seek fun k => k < s).1
  rw [Fenced.seek_fill] at whole
  rcases row.route_cases split s with ⟨-, same⟩ | ⟨l, p, r, halves, ⟨-, same⟩ | ⟨-, same⟩⟩
  · rw [same]
    omega
  · rw [same, (Hole.items_pushLeft _ l p).length_eq, List.length_cons]
    omega
  · rw [same, (Hole.items_pushRight _ p r).length_eq, List.length_cons]
    omega

section Tokens

variable {token : T → List K}

/-- Before the item a walk stops at, nothing is above the key it looks for. -/
theorem Hole.weaveLeft_le {s : K} {hole : Hole K T} (below : ∀ kid ∈ hole.left, kid.2 < s)
    (sorted : (hole.weaveLeft token fun k => [k]).Pairwise (· ≤ ·)) :
    ∀ x ∈ hole.weaveLeft token fun k => [k], x ≤ s := by
  intro x member
  obtain ⟨kid, kidMember, xMember⟩ := List.mem_flatMap.mp member
  have block := (List.pairwise_flatMap.mp sorted).1 kid kidMember
  rw [List.pairwise_append] at block
  have fence := (below kid kidMember).le
  rcases List.mem_append.mp xMember with inItem | inFence
  · exact (block.2.2 x inItem kid.2 (List.mem_singleton.mpr rfl)).trans fence
  · rw [List.mem_singleton.mp inFence]
    exact fence

/-- After it, nothing is below that key. -/
theorem Hole.le_weaveRight {s : K} {hole : Hole K T}
    (above : ∀ rest, hole.right = some rest → s ≤ rest.1)
    (sorted : (hole.weaveRight token fun k => [k]).Pairwise (· ≤ ·)) :
    ∀ x ∈ hole.weaveRight token fun k => [k], s ≤ x := by
  obtain ⟨left, right⟩ := hole
  cases right with
  | none =>
    intro x member
    cases member
  | some rest =>
    intro x member
    have fence := above rest rfl
    have tail := List.pairwise_cons.mp sorted
    rcases List.mem_cons.mp member with rfl | inRest
    · exact fence
    · exact fence.trans (tail.1 x inRest)

/-- **The tokens after the split**: still sorted, none new, and on the two sides of the key. -/
theorem Fenced.route_tokens
    (halve : ∀ t l p r, split t = some (l, p, r) → (token t).Pairwise (· ≤ ·) →
      (token l ++ p :: token r).Pairwise (· ≤ ·))
    (sub : ∀ t l p r, split t = some (l, p, r) → ∀ x ∈ token l ++ p :: token r, x ∈ token t)
    (sorted : (row.weave token fun k => [k]).Pairwise (· ≤ ·)) :
    ((row.route split s).2.weaveLeft token (fun k => [k]) ++ token (row.route split s).1 ++
        (row.route split s).2.weaveRight token fun k => [k]).Pairwise (· ≤ ·) ∧
      (∀ x ∈ (row.route split s).2.weaveLeft token (fun k => [k]) ++
        token (row.route split s).1 ++ (row.route split s).2.weaveRight token fun k => [k],
          x ∈ row.weave token fun k => [k]) ∧
      (∀ x ∈ (row.route split s).2.weaveLeft token fun k => [k], x ≤ s) ∧
      ∀ x ∈ (row.route split s).2.weaveRight token fun k => [k], s ≤ x := by
  have whole := Hole.weave_fill token (fun k => [k]) (row.seek fun k => k < s).2
    (.single (row.seek fun k => k < s).1)
  rw [Fenced.seek_fill, Fenced.weave_single] at whole
  rw [whole] at sorted ⊢
  have sides := List.pairwise_append.mp sorted
  have sides' := List.pairwise_append.mp sides.1
  have left := Hole.weaveLeft_le (fun kid member => by
    simpa using row.seek_left (fun k => decide (k < s)) kid member) sides'.1
  have right := Hole.le_weaveRight (fun rest found => by
    simpa using row.seek_right (fun k => decide (k < s)) rest found) sides.2.1
  rcases row.route_cases split s with ⟨-, same⟩ | ⟨l, p, r, halves, cases⟩
  · rw [same]
    exact ⟨sorted, fun _ member => member, left, right⟩
  · have parts := halve _ l p r halves sides'.2.1
    have old := sub _ l p r halves
    -- the tokens with the item replaced by its halves and their separator
    have sortedAll : ((row.seek fun k => k < s).2.weaveLeft token (fun k => [k]) ++
        (token l ++ p :: token r) ++
        (row.seek fun k => k < s).2.weaveRight token fun k => [k]).Pairwise (· ≤ ·) := by
      refine List.pairwise_append.mpr ⟨List.pairwise_append.mpr ⟨sides'.1, parts,
        fun x inLeft y inParts => sides'.2.2 x inLeft y (old y inParts)⟩, sides.2.1,
        fun x inParts y inRight => ?_⟩
      rcases List.mem_append.mp inParts with inLeft | inHalves
      · exact sides.2.2 x (List.mem_append_left _ inLeft) y inRight
      · exact sides.2.2 x (List.mem_append_right _ (old x inHalves)) y inRight
    have memAll : ∀ x ∈ (row.seek fun k => k < s).2.weaveLeft token (fun k => [k]) ++
        (token l ++ p :: token r) ++
        (row.seek fun k => k < s).2.weaveRight token fun k => [k],
        x ∈ (row.seek fun k => k < s).2.weaveLeft token (fun k => [k]) ++
          token (row.seek fun k => k < s).1 ++
          (row.seek fun k => k < s).2.weaveRight token fun k => [k] := by
      intro x member
      simp only [List.mem_append] at member ⊢
      rcases member with (inLeft | inHalves) | inRight
      · exact Or.inl (Or.inl inLeft)
      · exact Or.inl (Or.inr (old x (List.mem_append.mpr inHalves)))
      · exact Or.inr inRight
    have halfParts := List.pairwise_append.mp parts
    rcases cases with ⟨small, same⟩ | ⟨large, same⟩
    · rw [same]
      simp only [Hole.weaveLeft_pushLeft, Hole.weaveRight_pushLeft]
      refine ⟨by simpa using sortedAll, fun x member => memAll x (by simpa using member),
        fun x member => ?_, right⟩
      simp only [List.mem_append, List.mem_singleton] at member
      rcases member with (inLeft | inHalf) | rfl
      · exact left x inLeft
      · exact (halfParts.2.2 x inHalf p List.mem_cons_self).trans small
      · exact small
    · rw [same]
      simp only [Hole.weaveLeft_pushRight, Hole.weaveRight_pushRight]
      refine ⟨by simpa using sortedAll, fun x member => memAll x (by simpa using member), left,
        fun x member => ?_⟩
      simp only [List.mem_append, List.mem_singleton] at member
      rcases member with (rfl | inHalf) | inRight
      · exact large.le
      · exact large.le.trans ((List.pairwise_cons.mp halfParts.2.1).1 x inHalf)
      · exact right x inRight

end Tokens

end Route

namespace LeafTree

section Insert

variable [LinearOrder K] {key : E → K} {le : E → E → Prop} [DecidableRel le]

/-- The order of the entries refines the order of their keys. -/
structure Refines (key : E → K) (le : E → E → Prop) : Prop where
  le_key : ∀ a b, le a b → key a ≤ key b
  not_le_key : ∀ a b, ¬ le a b → key b ≤ key a

theorem ins_of_route (le : E → E → Prop) [DecidableRel le] (e : E) {h : Nat}
    {row : Fenced K (LeafTree K E h)} {t : LeafTree K E h} {hole : Hole K (LeafTree K E h)}
    (routed : row.route (split key h) (key e) = (t, hole)) :
    ins key le (h + 1) row e = hole.fill (.single (ins key le h t e)) := by
  change Hole.fill (row.route (split key h) (key e)).2 (.single (ins _ _ _
    (row.route (split key h) (key e)).1 _)) = _
  rw [routed]

/-- The item an insertion enters is filled and not full, and a filled item in its place gives a
filled node. -/
theorem filled_route {h : Nat} {row : Fenced K (LeafTree K E h)} {s : K} {t : LeafTree K E h}
    {hole : Hole K (LeafTree K E h)} (routed : row.route (split key h) s = (t, hole))
    (filled : Filled (h + 1) row) (room : row.split = none) :
    Filled h t ∧ split key h t = none ∧
      ∀ t', Filled h t' → Filled (h + 1) (hole.fill (.single t')) := by
  obtain ⟨one, three, all⟩ := filled
  have short := (Fenced.split_eq_none three).mp room
  obtain ⟨target, others⟩ := Fenced.route_items (split key h) s row (fun t l p r => filled_split) all
  have length := Fenced.route_length (split key h) s row
  have free := Fenced.split_route (split key h) s row fun t l p r => split_split
  simp only [routed] at target others length free
  refine ⟨target, free, fun t' filledItem => ?_⟩
  have filledLength := Hole.fill_kids_length hole t'
  refine ⟨by omega, by omega, fun t'' member => ?_⟩
  rcases List.mem_cons.mp ((Hole.items_fill _ _).mem_iff.mp member) with rfl | other
  · exact filledItem
  · exact others t'' other

/-- **An insertion keeps one to three keys in every node.** -/
theorem ins_filled (h : Nat) : ∀ (t : LeafTree K E h) (e : E), Filled h t → split key h t = none →
    Filled h (ins key le h t e) := by
  induction h with
  | zero =>
    intro es e filled room
    have short := (splitEntries_eq_none filled.2).mp room
    have length := List.orderedInsert_length le es e
    exact ⟨by rw [ins, length]; omega, by rw [ins, length]; omega⟩
  | succ h ih =>
    intro row e filled room
    obtain ⟨target, free, fills⟩ := filled_route rfl filled room
    exact fills _ (ih _ e target free)

/-- **An insertion keeps the tokens sorted, and adds only the new key.** -/
theorem tokens_ins (refines : Refines key le) (h : Nat) :
    ∀ (t : LeafTree K E h) (e : E), (tokens key h t).Pairwise (· ≤ ·) →
      (tokens key h (ins key le h t e)).Pairwise (· ≤ ·) ∧
        ∀ x ∈ tokens key h (ins key le h t e), x = key e ∨ x ∈ tokens key h t := by
  induction h with
  | zero =>
    intro es e sorted
    refine ⟨?_, fun x member => ?_⟩
    · induction es with
      | nil => simp [ins, tokens]
      | cons first rest ih =>
        have parts := List.pairwise_cons.mp sorted
        by_cases before : le e first
        · have tail : (tokens key 0 (first :: rest : List E)).Pairwise (· ≤ ·) := sorted
          simp only [ins, tokens, List.orderedInsert_cons_of_le le rest before, List.map_cons]
          refine List.pairwise_cons.mpr ⟨fun x member => ?_, tail⟩
          have small := refines.le_key _ _ before
          rcases List.mem_cons.mp member with rfl | later
          · exact small
          · exact small.trans (parts.1 x later)
        · simp only [ins, tokens, List.orderedInsert_of_not_le le rest before, List.map_cons]
          refine List.pairwise_cons.mpr ⟨fun x member => ?_, ih parts.2⟩
          obtain ⟨y, yMember, rfl⟩ := List.mem_map.mp member
          rcases (List.mem_orderedInsert le).mp yMember with rfl | old
          · exact refines.not_le_key _ _ before
          · exact parts.1 _ (List.mem_map_of_mem old)
    · obtain ⟨y, yMember, rfl⟩ := List.mem_map.mp member
      rcases (List.mem_orderedInsert le).mp yMember with rfl | old
      · exact Or.inl rfl
      · exact Or.inr (List.mem_map_of_mem old)
  | succ h ih =>
    intro row e sorted
    obtain ⟨routed, sub, left, right⟩ := Fenced.route_tokens (split key h) (key e) row
      (fun t l p r => pairwise_tokens_split) (fun t l p r => mem_tokens_split) sorted
    have sides := List.pairwise_append.mp routed
    have sides' := List.pairwise_append.mp sides.1
    obtain ⟨inner, fresh⟩ := ih _ e sides'.2.1
    simp only [ins, tokens, Hole.weave_fill, Fenced.weave_single]
    refine ⟨List.pairwise_append.mpr ⟨List.pairwise_append.mpr ⟨sides'.1, inner, ?_⟩, sides.2.1, ?_⟩,
      fun x member => ?_⟩
    · intro x inLeft y inItem
      rcases fresh y inItem with rfl | old
      · exact left x inLeft
      · exact sides'.2.2 x inLeft y old
    · intro x inLeft y inRight
      rcases List.mem_append.mp inLeft with inLeft | inItem
      · exact sides.2.2 x (List.mem_append_left _ inLeft) y inRight
      · rcases fresh x inItem with rfl | old
        · exact right y inRight
        · exact sides.2.2 x (List.mem_append_right _ old) y inRight
    · rcases List.mem_append.mp member with inLeft | inRight
      · rcases List.mem_append.mp inLeft with inLeft | inItem
        · exact Or.inr (sub x (List.mem_append_left _ (List.mem_append_left _ inLeft)))
        · rcases fresh x inItem with rfl | old
          · exact Or.inl rfl
          · exact Or.inr (sub x (List.mem_append_left _ (List.mem_append_right _ old)))
      · exact Or.inr (sub x (List.mem_append_right _ inRight))

/-- **The entries around the leaf an insertion reaches**, before and after it. -/
theorem entries_ins (key : E → K) (le : E → E → Prop) [DecidableRel le] (h : Nat) :
    ∀ (t : LeafTree K E h) (e : E),
    entries h t = (spot key h t e).1 ++ (spot key h t e).2.1 ++ (spot key h t e).2.2 ∧
      entries h (ins key le h t e) =
        (spot key h t e).1 ++ (spot key h t e).2.1.orderedInsert le e ++ (spot key h t e).2.2 := by
  induction h with
  | zero =>
    intro es e
    exact ⟨(List.append_nil _).symm, (List.append_nil _).symm⟩
  | succ h ih =>
    intro row e
    obtain ⟨whole, inserted⟩ := ih (Fenced.route (split key h) (key e) row).1 e
    have same := Fenced.weave_route (split key h) (key e) row (entries h)
      fun t l p r => entries_split
    refine ⟨?_, ?_⟩
    · simp only [entries, spot]
      rw [← same, whole]
      simp
    · simp only [entries, ins, spot, Hole.weave_fill, Fenced.weave_single, inserted]
      simp

theorem perm_entries_ins (h : Nat) (t : LeafTree K E h) (e : E) :
    (entries h (ins key le h t e)).Perm (e :: entries h t) := by
  obtain ⟨whole, inserted⟩ := entries_ins key le h t e
  rw [whole, inserted]
  have leaf := (List.perm_orderedInsert le e (spot key h t e).2.1).append_left (spot key h t e).1
  exact (leaf.append_right _).trans (by
    rw [List.append_assoc, List.append_assoc]
    exact List.perm_middle)

omit [LinearOrder K] in
/-- The keys of the entries stand among the tokens. -/
theorem keys_sublist_tokens (h : Nat) : ∀ t : LeafTree K E h,
    ((entries h t).map key).Sublist (tokens key h t) := by
  induction h with
  | zero => exact fun es => List.Sublist.refl _
  | succ h ih =>
    intro row
    have woven := Fenced.map_weave (entries h) (fun _ : K => []) key row
    exact woven ▸ Fenced.weave_sublist ih (fun k => List.nil_sublist _) row

omit [LinearOrder K] in
theorem mem_tokens_of_entries (h : Nat) (t : LeafTree K E h) (e : E) (member : e ∈ entries h t) :
    key e ∈ tokens key h t :=
  (keys_sublist_tokens h t).subset (List.mem_map_of_mem member)

/-- **The keys on the two sides of the leaf an insertion reaches.** -/
theorem spot_keys (h : Nat) : ∀ (t : LeafTree K E h) (e : E), (tokens key h t).Pairwise (· ≤ ·) →
    (∀ x ∈ (spot key h t e).1, key x ≤ key e) ∧ ∀ x ∈ (spot key h t e).2.2, key e ≤ key x := by
  induction h with
  | zero =>
    intro es e _
    exact ⟨nofun, nofun⟩
  | succ h ih =>
    intro row e sorted
    obtain ⟨routed, -, left, right⟩ := Fenced.route_tokens (split key h) (key e) row
      (fun t l p r => pairwise_tokens_split) (fun t l p r => mem_tokens_split) sorted
    have inner := ih _ e (List.pairwise_append.mp (List.pairwise_append.mp routed).1).2.1
    refine ⟨fun x member => ?_, fun x member => ?_⟩
    · rcases List.mem_append.mp member with inLeft | inSpot
      · obtain ⟨kid, kidMember, inKid⟩ := List.mem_flatMap.mp inLeft
        rw [List.append_nil] at inKid
        refine left _ (List.mem_flatMap.mpr ⟨kid, kidMember, ?_⟩)
        exact List.mem_append_left _ (mem_tokens_of_entries h _ x inKid)
      · exact inner.1 x inSpot
    · rcases List.mem_append.mp member with inSpot | inRight
      · exact inner.2 x inSpot
      · refine right _ ?_
        revert inRight
        unfold Hole.weaveRight
        split
        · nofun
        · intro inRest
          exact List.mem_cons_of_mem _ (mem_tokens_of_entries (h + 1) _ x inRest)

/-- Putting an entry into a strictly ordered leaf. -/
theorem pairwise_orderedInsert (total : ∀ a b, le a b ∨ le b a)
    (trans : ∀ a b c, le a b → le b c → le a c) {e : E} :
    ∀ {es : List E}, es.Pairwise (fun a b => ¬ le b a) → (∀ x ∈ es, ¬ (le e x ∧ le x e)) →
      (es.orderedInsert le e).Pairwise fun a b => ¬ le b a
  | [], _, _ => List.pairwise_singleton _ _
  | first :: rest, sorted, fresh => by
    have parts := List.pairwise_cons.mp sorted
    by_cases before : le e first
    · rw [List.orderedInsert_cons_of_le le rest before]
      refine List.pairwise_cons.mpr ⟨fun x member => ?_, sorted⟩
      rcases List.mem_cons.mp member with rfl | later
      · exact fun back => fresh x List.mem_cons_self ⟨before, back⟩
      · exact fun back => parts.1 x later (trans _ _ _ back before)
    · rw [List.orderedInsert_of_not_le le rest before]
      refine List.pairwise_cons.mpr ⟨fun x member => ?_, pairwise_orderedInsert total trans parts.2
        fun x member => fresh x (List.mem_cons_of_mem _ member)⟩
      rcases (List.mem_orderedInsert le).mp member with rfl | later
      · exact before
      · exact parts.1 x later

/-- **When an insertion keeps the entries strictly ordered**: exactly when those outside its leaf that
tie with the new key stand on the right side of the new entry. -/
theorem pairwise_entries_ins_iff (refines : Refines key le) (total : ∀ a b, le a b ∨ le b a)
    (trans : ∀ a b c, le a b → le b c → le a c) (h : Nat) (t : LeafTree K E h) (e : E)
    (tokensSorted : (tokens key h t).Pairwise (· ≤ ·))
    (fresh : ∀ x ∈ entries h t, ¬ (le e x ∧ le x e)) :
    (entries h (ins key le h t e)).Pairwise (fun a b => ¬ le b a) ↔
      (entries h t).Pairwise (fun a b => ¬ le b a) ∧
      (∀ x ∈ (spot key h t e).1, key x = key e → ¬ le e x) ∧
        ∀ x ∈ (spot key h t e).2.2, key x = key e → ¬ le x e := by
  obtain ⟨whole, inserted⟩ := entries_ins key le h t e
  have keys := spot_keys h t e tokensSorted
  rw [whole] at fresh ⊢
  rw [inserted]
  generalize spot key h t e = parts at *
  obtain ⟨before, leaf, after⟩ := parts
  simp only at *
  have member : e ∈ leaf.orderedInsert le e := (List.mem_orderedInsert le).mpr (Or.inl rfl)
  constructor
  · intro sorted
    have sides := List.pairwise_append.mp sorted
    have sides' := List.pairwise_append.mp sides.1
    refine ⟨sorted.sublist ?_, fun x inBefore _ => sides'.2.2 x inBefore e member,
      fun x inAfter _ => sides.2.2 e (List.mem_append_right _ member) x inAfter⟩
    exact ((List.sublist_orderedInsert e leaf).append_left before).append_right after
  · rintro ⟨sorted, ties, ties'⟩
    have sides := List.pairwise_append.mp sorted
    have sides' := List.pairwise_append.mp sides.1
    have leafSorted := pairwise_orderedInsert total trans (e := e) sides'.2.1 fun x inLeaf =>
      fresh x (List.mem_append_left _ (List.mem_append_right _ inLeaf))
    have beforeNew : ∀ x ∈ before, ¬ le e x := fun x inBefore back =>
      ties x inBefore (le_antisymm (keys.1 x inBefore) (refines.le_key _ _ back)) back
    have afterNew : ∀ x ∈ after, ¬ le x e := fun x inAfter back =>
      ties' x inAfter (le_antisymm (refines.le_key _ _ back) (keys.2 x inAfter)) back
    refine List.pairwise_append.mpr ⟨List.pairwise_append.mpr ⟨sides'.1, leafSorted, ?_⟩,
      sides.2.1, ?_⟩
    · intro x inBefore y inLeaf
      rcases (List.mem_orderedInsert le).mp inLeaf with rfl | old
      · exact beforeNew x inBefore
      · exact sides'.2.2 x inBefore y old
    · intro x inFront y inAfter
      rcases List.mem_append.mp inFront with inBefore | inLeaf
      · exact sides.2.2 x (List.mem_append_left _ inBefore) y inAfter
      · rcases (List.mem_orderedInsert le).mp inLeaf with rfl | old
        · exact afterNew y inAfter
        · exact sides.2.2 x (List.mem_append_right _ old) y inAfter

end Insert

/-! ### Nodes -/

section Size

variable (key : E → K)

theorem size_fill (h : Nat) (hole : Hole K (LeafTree K E h)) (t : LeafTree K E h) :
    size (h + 1) (hole.fill (.single t)) = 1 + (size h t + (hole.items.map (size h)).sum) := by
  change 1 + ((hole.fill (.single t)).items.map (size h)).sum = _
  rw [((hole.items_fill t).map _).sum_eq, List.map_cons, List.sum_cons]

/-- The split on the way of an insertion adds a node. -/
theorem size_route [LinearOrder K] (h : Nat) (row : Fenced K (LeafTree K E h)) (s : K) :
    1 + (size h (row.route (split key h) s).1 +
        ((row.route (split key h) s).2.items.map (size h)).sum) =
      size (h + 1) row + if (split key h (row.seek fun k => k < s).1).isSome then 1 else 0 := by
  have whole : size (h + 1) row = _ :=
    (congrArg (size (h + 1)) (Fenced.seek_fill (fun k => decide (k < s)) row).symm).trans
      (size_fill h _ _)
  rw [whole]
  rcases Fenced.route_cases (split key h) s row with
    ⟨free, same⟩ | ⟨l, p, r, halves, ⟨-, same⟩ | ⟨-, same⟩⟩
  · rw [same, free]
    rfl
  · have parts := size_split halves
    rw [same, halves, ((Hole.items_pushLeft _ l p).map _).sum_eq, List.map_cons, List.sum_cons,
      Option.isSome_some, if_pos rfl]
    simp only
    omega
  · have parts := size_split halves
    rw [same, halves, ((Hole.items_pushRight _ p r).map _).sum_eq, List.map_cons, List.sum_cons,
      Option.isSome_some, if_pos rfl]
    simp only
    omega

/-- **An insertion drops no node.** -/
theorem size_le_ins [LinearOrder K] (le : E → E → Prop) [DecidableRel le] (h : Nat) :
    ∀ (t : LeafTree K E h) (e : E), size h t ≤ size h (ins key le h t e) := by
  induction h with
  | zero =>
    intro es e
    exact Nat.le_refl _
  | succ h ih =>
    intro row e
    have inner := ih (Fenced.route (split key h) (key e) row).1 e
    have routed := size_route key h row (key e)
    rw [ins, size_fill]
    omega

/-- Trees with fewer than two nodes for each entry, together. -/
theorem sum_size_le {h : Nat} {ts : List (LeafTree K E h)}
    (each : ∀ t ∈ ts, size h t + 1 ≤ 2 * (entries h t).length) :
    (ts.map (size h)).sum + ts.length ≤ 2 * (ts.flatMap (entries h)).length := by
  induction ts with
  | nil => exact Nat.zero_le _
  | cons t ts ih =>
    have first := each t List.mem_cons_self
    have rest := ih fun t member => each t (List.mem_cons_of_mem _ member)
    simp only [List.map_cons, List.sum_cons, List.length_cons, List.flatMap_cons, List.length_append]
    omega

/-- **A filled tree has fewer than two nodes for each entry.** -/
theorem size_lt_entries (h : Nat) : ∀ t : LeafTree K E h, Filled h t →
    size h t + 1 ≤ 2 * (entries h t).length := by
  induction h with
  | zero =>
    intro es filled
    have one : 1 ≤ List.length es := filled.1
    simp only [size, entries]
    omega
  | succ h ih =>
    intro row filled
    obtain ⟨one, -, all⟩ := filled
    have bound := sum_size_le fun t member => ih t (all t member)
    have length : (Fenced.items row).length = (Fenced.kids row).length + 1 := by
      simp [Fenced.items]
    have whole : (entries (h + 1) row).length = ((Fenced.items row).flatMap (entries h)).length :=
      congrArg List.length (Fenced.weave_items (entries h) row)
    rw [whole, size]
    omega

section Room

variable [LinearOrder K] {key} (le : E → E → Prop) [DecidableRel le] (e : E)

/-- The split on the way of an insertion keeps the entries. -/
theorem length_entries_route {h : Nat} {row : Fenced K (LeafTree K E h)} {s : K} {t : LeafTree K E h}
    {hole : Hole K (LeafTree K E h)} (routed : row.route (split key h) s = (t, hole)) :
    (entries (h + 1) row).length = (entries h t).length + (hole.items.flatMap (entries h)).length := by
  have same := Fenced.weave_route (split key h) s row (entries h) fun t l p r => entries_split
  have filled := Hole.weave_fill (entries h) (fun _ => []) hole (.single t)
  rw [Fenced.weave_single, Fenced.weave_items] at filled
  rw [routed, ← filled] at same
  have length := congrArg List.length same
  rw [((hole.items_fill t).flatMap_right _).length_eq, List.flatMap_cons, List.length_append] at length
  exact length.symm

/-- An insertion through a row, whose walk leaves an item beside the one it enters. -/
theorem size_ins_row {h : Nat} {row : Fenced K (LeafTree K E h)} {t : LeafTree K E h}
    {hole : Hole K (LeafTree K E h)} (routed : row.route (split key h) (key e) = (t, hole))
    (inner : size h (ins key le h t e) + 1 ≤ 2 * (entries h t).length)
    (others : ∀ t ∈ hole.items, Filled h t) (beside : 1 ≤ hole.items.length) :
    size (h + 1) (ins key le (h + 1) row e) + 1 ≤ 2 * (entries (h + 1) row).length := by
  have rest := sum_size_le fun t member => size_lt_entries h t (others t member)
  rw [ins_of_route le e routed, size_fill, length_entries_route routed]
  omega

/-- **An insertion takes fewer than two nodes for each entry that was there before**: the new entry goes
into a leaf that is not full. -/
theorem size_ins_lt (h : Nat) : ∀ t : LeafTree K E h, Filled h t →
    size h (ins key le h t e) + 1 ≤ 2 * (entries h t).length := by
  induction h with
  | zero => exact fun es filled => size_lt_entries 0 es filled
  | succ h ih =>
    intro row filled
    obtain ⟨one, -, all⟩ := filled
    obtain ⟨target, others⟩ :=
      Fenced.route_items (split key h) (key e) row (fun t l p r => filled_split) all
    have beside := (Fenced.route_length (split key h) (key e) row).1
    exact size_ins_row le e rfl (ih _ target) others (one.trans beside)

end Room

end Size

end LeafTree

end Zedis.Lib

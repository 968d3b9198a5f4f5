/-
**Which nodes a parsed value owns.**

`ValueAt mem value out nodes`: the links from `*out` lead to the nodes `nodes`, and what they hold is
`value`. `Owns` says what a function has done to the nodes: which are free, which are in use, that
nothing else was touched, and that no node was lost or is in two places.

* `respNodeAlloc_spec`: a new node, from the free ones or granted, is in use;
* `Built.append`: `resp__node_append` puts a node at the end of the list;
* `releaseLoop_spec`: a released list is free again, with all that hangs at its nodes.
-/

import Mathlib.Data.List.Perm.Subperm
import Zedis.Lib.Linked
import Zedis.Resp.Nodes

namespace Zedis.Resp

open Zedis.Lib

/-! ### What the links hold -/

/-- The value that a node holds, as `parse_value` gave it. -/
def nodeValue (node : RespNode) : RespValueT :=
  ⟨node.type, node.integer, node.bulk, node.childHead, node.childTail, node.childCount⟩

mutual

/-- **The value at `*out`**, and the nodes it is made of. -/
def ValueAt (mem : Nat → RespNode) : RespValue Slice → RespValueT → List Nat → Prop
  | .array elements, out, nodes => ∃ list, out = arrayOut list ∧ list.count = elements.length ∧
      ListAt mem elements none list.head list.tail nodes
  | value, out, nodes => out = outOf value ∧ nodes = []

/-- The values from `head` on by `next`, up to `tail`; `prev` is the node before them. -/
def ListAt (mem : Nat → RespNode) :
    List (RespValue Slice) → Option Nat → Option Nat → Option Nat → List Nat → Prop
  | [], prev, head, tail, nodes => head = none ∧ tail = prev ∧ nodes = []
  | value :: values, prev, head, tail, nodes => ∃ node inner rest, head = some node ∧
      nodes = node :: (inner ++ rest) ∧ (mem node).prev = prev ∧
      ValueAt mem value (nodeValue (mem node)) inner ∧
      ListAt mem values (some node) (mem node).next tail rest

end

section Links

variable {mem mem' : Nat → RespNode}

mutual

theorem ValueAt.congr : ∀ {value : RespValue Slice} {out : RespValueT} {nodes : List Nat},
    (∀ node ∈ nodes, mem' node = mem node) → ValueAt mem value out nodes → ValueAt mem' value out nodes
  | .array _, _, _, same, ⟨list, isOut, count, linked⟩ => ⟨list, isOut, count, linked.congr same⟩
  | .simple _, _, _, _, held => held
  | .error _, _, _, _, held => held
  | .integer _, _, _, _, held => held
  | .bulk _, _, _, _, held => held
  | .null, _, _, _, held => held

/-- Other nodes do not matter. -/
theorem ListAt.congr : ∀ {values : List (RespValue Slice)} {prev head tail : Option Nat}
    {nodes : List Nat}, (∀ node ∈ nodes, mem' node = mem node) →
      ListAt mem values prev head tail nodes → ListAt mem' values prev head tail nodes
  | [], _, _, _, _, _, linked => linked
  | _ :: _, _, _, _, _, same, ⟨node, inner, rest, isHead, isNodes, before, held, linked⟩ => by
    subst isNodes
    have here := same node List.mem_cons_self
    refine ⟨node, inner, rest, isHead, rfl, by rw [here]; exact before, ?_, ?_⟩
    · rw [here]
      exact held.congr fun other member =>
        same other (List.mem_cons_of_mem _ (List.mem_append_left _ member))
    · rw [here]
      exact linked.congr fun other member =>
        same other (List.mem_cons_of_mem _ (List.mem_append_right _ member))

end

variable {values : List (RespValue Slice)} {prev head tail : Option Nat} {nodes : List Nat}

/-- The last node is the one before the values, or one of theirs. -/
theorem ListAt.tail_mem : ∀ {values : List (RespValue Slice)} {prev head : Option Nat} {nodes : List Nat},
    ListAt mem values prev head tail nodes → (values = [] ∧ tail = prev) ∨
      values ≠ [] ∧ ∃ last ∈ nodes, tail = some last
  | [], _, _, _, ⟨_, isTail, _⟩ => Or.inl ⟨rfl, isTail⟩
  | _ :: _, _, _, _, ⟨node, inner, rest, _, isNodes, _, _, linked⟩ => by
    subst isNodes
    rcases linked.tail_mem with ⟨-, isTail⟩ | ⟨-, last, member, isTail⟩
    · exact Or.inr ⟨List.cons_ne_nil _ _, node, List.mem_cons_self, isTail⟩
    · exact Or.inr ⟨List.cons_ne_nil _ _, last,
        List.mem_cons_of_mem _ (List.mem_append_right _ member), isTail⟩

/-- **A node at the end.** -/
theorem ListAt.snoc {node : Nat} {inner : List Nat} {value : RespValue Slice}
    (mine : mem' node = { mem node with next := none, prev := tail })
    (kept : ∀ other ∈ inner, mem' other = mem other)
    (held : ValueAt mem value (nodeValue (mem node)) inner) :
    ∀ {values : List (RespValue Slice)} {prev head : Option Nat} {nodes : List Nat}, nodes.Nodup →
      (∀ other ∈ nodes, tail ≠ some other → mem' other = mem other) →
      (∀ other ∈ nodes, tail = some other → mem' other = { mem other with next := some node }) →
      ListAt mem values prev head tail nodes →
      ListAt mem' (values ++ [value]) prev (if values = [] then some node else head) (some node)
        (nodes ++ node :: inner)
  | [], _, _, _, _, _, _, ⟨_, isTail, isNodes⟩ => by
    subst isNodes isTail
    refine ⟨node, inner, [], rfl, by rw [List.append_nil, List.nil_append], by rw [mine], ?_, ?_⟩
    · rw [mine]
      exact held.congr kept
    · rw [mine]
      exact ⟨rfl, rfl, rfl⟩
  | _ :: values, _, _, _, nodup, same, last, ⟨first, own, rest, isHead, isNodes, before, here, linked⟩ => by
    subst isNodes
    obtain ⟨fresh, nodup⟩ := List.nodup_cons.mp nodup
    obtain ⟨-, nodupRest, apart⟩ := List.nodup_append.mp nodup
    have ownKept : ∀ other ∈ own, mem' other = mem other := by
      intro other member
      refine same other (List.mem_cons_of_mem _ (List.mem_append_left _ member)) ?_
      rintro rfl
      rcases linked.tail_mem with ⟨-, isFirst⟩ | ⟨-, _, inRest, isLast⟩
      · cases isFirst
        exact fresh (List.mem_append_left _ member)
      · cases isLast
        exact apart other member other inRest rfl
    have onward := linked.snoc mine kept held nodupRest
      (fun other member => same other (List.mem_cons_of_mem _ (List.mem_append_right _ member)))
      (fun other member => last other (List.mem_cons_of_mem _ (List.mem_append_right _ member)))
    have link : (mem' first).prev = (mem first).prev ∧ nodeValue (mem' first) = nodeValue (mem first) ∧
        (mem' first).next = if values = [] then some node else (mem first).next := by
      rcases linked.tail_mem with ⟨isEmpty, isFirst⟩ | ⟨nonempty, other, inRest, isLast⟩
      · rw [last first List.mem_cons_self isFirst, if_pos isEmpty]
        exact ⟨rfl, rfl, rfl⟩
      · have apartFirst : tail ≠ some first := by
          rw [isLast]
          rintro ⟨⟩
          exact fresh (List.mem_append_right _ inRest)
        rw [same first List.mem_cons_self apartFirst, if_neg nonempty]
        exact ⟨rfl, rfl, rfl⟩
    obtain ⟨linkPrev, linkValue, linkNext⟩ := link
    rw [if_neg (List.cons_ne_nil _ _)]
    refine ⟨first, own, rest ++ node :: inner, isHead, ?_, linkPrev.trans before, ?_, ?_⟩
    · rw [List.cons_append, List.append_assoc]
    · rw [linkValue]
      exact here.congr ownKept
    · rw [linkNext]
      exact onward

/-- A value with no list at it has no nodes. -/
theorem ValueAt.nodes_eq_nil {value : RespValue Slice} {out : RespValueT}
    (held : ValueAt mem value out nodes) (noList : out.arrayHead = none) : nodes = [] := by
  cases value with
  | array elements =>
    obtain ⟨list, isOut, -, linked⟩ := held
    subst isOut
    cases elements with
    | nil => exact linked.2.2
    | cons _ _ =>
      obtain ⟨_, _, _, isHead, -⟩ := linked
      cases noList.symm.trans isHead
  | _ => exact held.2

/-- A list at a value is that of its elements. -/
theorem ValueAt.elements {value : RespValue Slice} {out : RespValueT} {first : Nat}
    (held : ValueAt mem value out nodes) (isHead : out.arrayHead = some first) :
    ∃ elements last, ListAt mem elements none (some first) last nodes := by
  cases value with
  | array elements =>
    obtain ⟨list, isOut, -, linked⟩ := held
    subst isOut
    exact ⟨elements, list.tail, isHead ▸ linked⟩
  | _ => rw [held.1] at isHead; cases isHead

end Links

/-! ### Free and used nodes -/

/-- The nodes on the list of free ones. -/
structure FreeNodes (pool : NodePool) (free : List Nat) : Prop where
  listed : Listed (fun node => (pool.mem node).next) pool.freeList free
  nodup : free.Nodup
  below : ∀ node ∈ free, node < pool.asked

/-- The nodes granted by the requests from the `first` one up to the `last` one. -/
def granted (malloc : Nat → Bool) (first last : Nat) : List Nat :=
  (List.range' first (last - first)).filter malloc

theorem mem_granted {malloc : Nat → Bool} {first last node : Nat} :
    node ∈ granted malloc first last ↔ (first ≤ node ∧ node < last) ∧ malloc node = true := by
  rw [granted, List.mem_filter, List.mem_range'_1]
  refine and_congr_left fun _ => ?_
  omega

theorem granted_append {malloc : Nat → Bool} {first middle last : Nat} (low : first ≤ middle)
    (high : middle ≤ last) :
    granted malloc first middle ++ granted malloc middle last = granted malloc first last := by
  have whole : List.range' first (middle - first) ++
      List.range' (first + (middle - first)) (last - middle) = _ := List.range'_append_1
  rw [Nat.add_sub_cancel' low, show middle - first + (last - middle) = last - first by omega] at whole
  rw [granted, granted, granted, ← List.filter_append, whole]

/-- **What became of the nodes** since the pool was `base` with the free nodes `old`: now `free` are
free and `used` are in use, which are those that were free and those granted since; others are as they
were. -/
structure Owns (malloc : Nat → Bool) (base : NodePool) (old : List Nat) (pool : NodePool)
    (free used : List Nat) : Prop where
  start : FreeNodes base old
  now : FreeNodes pool free
  later : base.asked ≤ pool.asked
  conserved : (free ++ used).Perm (old ++ granted malloc base.asked pool.asked)
  frame : ∀ node, node ∉ old → node < base.asked → pool.mem node = base.mem node

section Ownership

variable {malloc : Nat → Bool} {base pool last : NodePool} {old free used free' used' : List Nat}
  {node : Nat}

theorem Owns.refl (start : FreeNodes pool free) : Owns malloc pool free pool free [] where
  start := start
  now := start
  later := le_rfl
  conserved := by rw [granted, Nat.sub_self]; exact List.Perm.refl _
  frame := fun _ _ _ => rfl

/-- **No node is in two places.** -/
theorem Owns.nodup (owns : Owns malloc base old pool free used) : (free ++ used).Nodup := by
  refine owns.conserved.nodup_iff.mpr (List.nodup_append.mpr ⟨owns.start.nodup, ?_, ?_⟩)
  · exact List.Nodup.filter _ List.nodup_range'
  · rintro node isOld _ isNew rfl
    have below := owns.start.below node isOld
    have above := (mem_granted.mp isNew).1.1
    omega

theorem Owns.of_mem (owns : Owns malloc base old pool free used) (member : node ∈ free ++ used) :
    node ∈ old ∨ base.asked ≤ node ∧ node < pool.asked := by
  rcases List.mem_append.mp (owns.conserved.mem_iff.mp member) with isOld | isNew
  · exact Or.inl isOld
  · exact Or.inr (mem_granted.mp isNew).1

theorem Owns.below (owns : Owns malloc base old pool free used) (member : node ∈ used) :
    node < pool.asked := by
  rcases owns.of_mem (List.mem_append_right _ member) with isOld | isNew
  · exact (owns.start.below node isOld).trans_le owns.later
  · exact isNew.2

theorem Owns.notMem_free (owns : Owns malloc base old pool free used) (member : node ∈ used) :
    node ∉ free := fun isFree => (List.nodup_append.mp owns.nodup).2.2 node isFree node member rfl

/-- Nodes in use are kept by what comes after. -/
theorem Owns.keeps (owns : Owns malloc base old pool free used)
    (next : Owns malloc pool free last free' used') : ∀ node ∈ used, last.mem node = pool.mem node :=
  fun node member => next.frame node (owns.notMem_free member) (owns.below member)

theorem Owns.perm (owns : Owns malloc base old pool free used) (same : used'.Perm used) :
    Owns malloc base old pool free used' :=
  { owns with conserved := (same.append_left free).trans owns.conserved }

theorem Owns.trans (owns : Owns malloc base old pool free used)
    (next : Owns malloc pool free last free' used') :
    Owns malloc base old last free' (used ++ used') where
  start := owns.start
  now := next.now
  later := owns.later.trans next.later
  conserved := by
    rw [← granted_append owns.later next.later]
    calc free' ++ (used ++ used')
        |>.Perm (free' ++ (used' ++ used)) := List.perm_append_comm.append_left _
      _ |>.Perm (free ++ granted malloc pool.asked last.asked ++ used) := by
          rw [← List.append_assoc]
          exact next.conserved.append_right _
      _ |>.Perm (free ++ used ++ granted malloc pool.asked last.asked) := by
          rw [List.append_assoc, List.append_assoc]
          exact List.perm_append_comm.append_left _
      _ |>.Perm _ := by
          rw [← List.append_assoc]
          exact owns.conserved.append_right _
  frame := fun node outside below => by
    have notFree : node ∉ free := by
      intro isFree
      rcases owns.of_mem (List.mem_append_left _ isFree) with isOld | isNew
      · exact outside isOld
      · omega
    rw [next.frame node notFree (below.trans_le owns.later), owns.frame node outside below]

/-- **A node in use may be written.** -/
theorem Owns.write (owns : Owns malloc base old pool free used) (member : node ∈ used)
    (contents : RespNode) : Owns malloc base old (pool.write node contents) free used where
  start := owns.start
  now :=
    { listed := owns.now.listed.congr fun other isFree => by
        have apart : other ≠ node := ne_of_mem_of_not_mem isFree (owns.notMem_free member)
        exact congrArg RespNode.next (mem_write_of_ne _ _ apart)
      nodup := owns.now.nodup
      below := owns.now.below }
  later := owns.later
  conserved := owns.conserved
  frame := fun other outside below => by
    have apart : other ≠ node := by
      rintro rfl
      rcases owns.of_mem (List.mem_append_right _ member) with isOld | isNew
      · exact outside isOld
      · omega
    exact (mem_write_of_ne _ _ apart).trans (owns.frame other outside below)

/-- `resp__node_free` makes a node in use a free one. -/
theorem Owns.nodeFree (owns : Owns malloc base old pool free (node :: used)) :
    Owns malloc base old (respNodeFree pool node) (node :: free) used := by
  have written := owns.write List.mem_cons_self { pool.mem node with next := pool.freeList, prev := none }
  refine ⟨owns.start, ⟨⟨rfl, ?_⟩, ?_, ?_⟩, owns.later, ?_, written.frame⟩
  · have link : ((respNodeFree pool node).mem node).next = pool.freeList :=
      congrArg RespNode.next (mem_write_self pool node _)
    dsimp only
    rw [link]
    exact written.now.listed
  · exact List.nodup_cons.mpr ⟨owns.notMem_free List.mem_cons_self, owns.now.nodup⟩
  · intro other member
    rcases List.mem_cons.mp member with rfl | isFree
    · exact owns.below List.mem_cons_self
    · exact owns.now.below other isFree
  · exact List.perm_middle.symm.trans owns.conserved

/-- A request was refused. -/
def Refused (malloc : Nat → Bool) (base pool : NodePool) : Prop :=
  ∃ request, base.asked ≤ request ∧ request < pool.asked ∧ malloc request = false

/-- **`resp__node_alloc`**: a zeroed node, or a refused request. -/
theorem respNodeAlloc_spec (malloc : Nat → Bool) (start : FreeNodes pool free) :
    (∃ node next free', respNodeAlloc malloc pool = (some node, next) ∧
      Owns malloc pool free next free' [node] ∧ next.mem node = zeroNode) ∨
    ∃ next, respNodeAlloc malloc pool = (none, next) ∧ Owns malloc pool free next free [] ∧
      Refused malloc pool next := by
  unfold respNodeAlloc
  cases free with
  | cons node free =>
    obtain ⟨isHead, listed⟩ := start.listed
    obtain ⟨fresh, nodup⟩ := List.nodup_cons.mp start.nodup
    rw [isHead]
    refine Or.inl ⟨node, _, free, rfl, ⟨start, ⟨?_, nodup, ?_⟩, le_rfl, ?_, ?_⟩, mem_write_self _ _ _⟩
    · exact listed.congr fun other isFree =>
        congrArg RespNode.next (mem_write_of_ne _ _ (ne_of_mem_of_not_mem isFree fresh))
    · exact fun other isFree => start.below other (List.mem_cons_of_mem _ isFree)
    · change (free ++ [node]).Perm (node :: free ++ granted malloc pool.asked pool.asked)
      rw [granted, Nat.sub_self, List.range'_zero, List.filter_nil, List.append_nil]
      exact List.perm_append_singleton node free
    · intro other outside _
      exact mem_write_of_ne _ _ (ne_of_mem_of_not_mem List.mem_cons_self outside).symm
  | nil =>
    have isEmpty : pool.freeList = none := start.listed
    rw [isEmpty]
    dsimp only
    by_cases grants : malloc pool.asked = true
    · rw [if_pos grants]
      refine Or.inl ⟨pool.asked, _, [], rfl, ⟨start, ⟨rfl, List.nodup_nil, nofun⟩, Nat.le_succ _, ?_, ?_⟩,
        mem_write_self _ _ _⟩
      · change [pool.asked].Perm (granted malloc pool.asked (pool.asked + 1))
        rw [granted, Nat.add_sub_cancel_left, List.range'_one, List.filter_cons_of_pos grants,
          List.filter_nil]
      · exact fun other _ below => mem_write_of_ne _ _ below.ne
    · rw [if_neg grants]
      refine Or.inr ⟨_, rfl, ⟨start, ⟨rfl, List.nodup_nil, nofun⟩, Nat.le_succ _, ?_, fun _ _ _ => rfl⟩,
        pool.asked, le_rfl, Nat.lt_succ_self _, Bool.eq_false_iff.mpr grants⟩
      change [].Perm (granted malloc pool.asked (pool.asked + 1))
      rw [granted, Nat.add_sub_cancel_left, List.range'_one, List.filter_cons_of_neg grants,
        List.filter_nil]

/-- **A list that is being built**: its nodes and what hangs at them are the nodes in use. -/
structure Built (malloc : Nat → Bool) (base : NodePool) (old : List Nat) (pool : NodePool)
    (free used : List Nat) (list : NodeList) (values : List (RespValue Slice)) : Prop where
  owns : Owns malloc base old pool free used
  linked : ListAt pool.mem values none list.head list.tail used
  count : list.count = values.length

theorem Built.noNodes (start : FreeNodes pool free) :
    Built malloc pool free pool free [] noNodes [] :=
  ⟨.refl start, ⟨rfl, rfl, rfl⟩, rfl⟩

/-- **`resp__node_append`** puts a node with a value at the end. -/
theorem Built.append {list : NodeList} {values : List (RespValue Slice)} {inner : List Nat}
    {value : RespValue Slice} (owns : Owns malloc base old pool free (used ++ node :: inner))
    (linked : ListAt pool.mem values none list.head list.tail used) (count : list.count = values.length)
    (held : ValueAt pool.mem value (nodeValue (pool.mem node)) inner) :
    ∃ list' pool', respNodeAppend list pool node = (list', pool') ∧
      Built malloc base old pool' free (used ++ node :: inner) list' (values ++ [value]) := by
  obtain ⟨nodupUsed, nodupNode, apart⟩ := List.nodup_append.mp (List.nodup_append.mp owns.nodup).2.1
  have fresh : node ∉ inner := (List.nodup_cons.mp nodupNode).1
  have more : list.count + 1 = (values ++ [value]).length := by
    rw [List.length_append, count]
    rfl
  obtain ⟨tied, isTied⟩ : ∃ tied, pool.write node
      { pool.mem node with next := none, prev := list.tail } = tied := ⟨_, rfl⟩
  have here : tied.mem node = { pool.mem node with next := none, prev := list.tail } := by
    rw [← isTied, mem_write_self]
  have elsewhere : ∀ other, other ≠ node → tied.mem other = pool.mem other := by
    intro other other_ne
    rw [← isTied, mem_write_of_ne _ _ other_ne]
  have owned : Owns malloc base old tied free (used ++ node :: inner) :=
    isTied ▸ owns.write (List.mem_append_right _ List.mem_cons_self) _
  unfold respNodeAppend
  simp only [isTied]
  rcases linked.tail_mem with ⟨isEmpty, isTail⟩ | ⟨nonempty, last, inUsed, isTail⟩
  · rw [isTail]
    refine ⟨_, _, rfl, owned, ?_, more⟩
    have snoc := linked.snoc here
      (fun other member => elsewhere other (ne_of_mem_of_not_mem member fresh)) held nodupUsed
      (fun other member _ => elsewhere other (apart other member node List.mem_cons_self))
      (fun other _ isLast => by cases isTail.symm.trans isLast)
    rwa [if_pos isEmpty] at snoc
  · have last_ne : last ≠ node := apart last inUsed node List.mem_cons_self
    rw [isTail]
    refine ⟨_, _, rfl, owned.write (List.mem_append_left _ inUsed) _, ?_, more⟩
    have otherwise : ∀ other, other ≠ last →
        (tied.write last { tied.mem last with next := some node }).mem other = tied.mem other :=
      fun other other_ne => mem_write_of_ne _ _ other_ne
    have snoc := linked.snoc ((otherwise node last_ne.symm).trans here)
      (fun other member =>
        (otherwise other (apart last inUsed other (List.mem_cons_of_mem _ member)).symm).trans
          (elsewhere other (ne_of_mem_of_not_mem member fresh))) held nodupUsed
      (fun other member notLast => (otherwise other fun same => notLast (by rw [isTail, same])).trans
        (elsewhere other (apart other member node List.mem_cons_self)))
      (fun other _ isLast => by
        cases isTail.symm.trans isLast
        rw [mem_write_self, elsewhere last last_ne])
    rwa [if_neg nonempty] at snoc

/-- **`resp__node_list_release`** makes the nodes of a list free, and all that hang at them. -/
theorem releaseLoop_spec : ∀ (fuel : Nat) {pool : NodePool} {free used others : List Nat}
    {values : List (RespValue Slice)} {prev head tail : Option Nat}, used.length < fuel →
      Owns malloc base old pool free (used ++ others) → ListAt pool.mem values prev head tail used →
      ∃ pool' free', releaseLoop fuel pool head = some pool' ∧ Owns malloc base old pool' free' others ∧
        pool'.asked = pool.asked ∧ ∀ other ∈ others, pool'.mem other = pool.mem other
  | 0, _, _, _, _, _, _, _, _, enough, _, _ => absurd enough (Nat.not_lt_zero _)
  | fuel + 1, pool, free, used, others, values, prev, head, tail, enough, owns, linked => by
    cases values with
    | nil =>
      obtain ⟨rfl, -, rfl⟩ := linked
      exact ⟨pool, free, rfl, owns, rfl, fun _ _ => rfl⟩
    | cons value values =>
      obtain ⟨node, inner, rest, rfl, rfl, -, held, linked⟩ := linked
      rw [List.length_cons, List.length_append] at enough
      have fresh : node ∉ rest ++ others := by
        have nodup := (List.nodup_append.mp owns.nodup).2.1
        rw [List.cons_append, List.append_assoc] at nodup
        exact fun member => (List.nodup_cons.mp nodup).1 (List.mem_append_right _ member)
      have children : (node :: (inner ++ rest) ++ others).Perm (inner ++ (node :: (rest ++ others))) := by
        rw [List.cons_append, List.append_assoc]
        exact List.perm_middle.symm
      -- what hangs at the node is released first
      obtain ⟨middle, freeMiddle, releases, ownsMiddle, askedMiddle, keptMiddle⟩ : ∃ middle freeMiddle,
          releaseChildren (releaseLoop fuel) pool node = some middle ∧
          Owns malloc base old middle freeMiddle (node :: (rest ++ others)) ∧
          middle.asked = pool.asked ∧ ∀ other ∈ rest ++ others, middle.mem other = pool.mem other := by
        have ownsInner := owns.perm children.symm
        unfold releaseChildren
        cases isChild : (pool.mem node).childHead with
        | none =>
          rw [held.nodes_eq_nil isChild] at ownsInner
          exact ⟨pool, free, rfl, ownsInner, rfl, fun _ _ => rfl⟩
        | some child =>
          obtain ⟨elements, last, below⟩ := held.elements isChild
          obtain ⟨released, freed, ends, ownsReleased, asked, kept⟩ :=
            releaseLoop_spec fuel (by omega) ownsInner below
          refine ⟨_, freed, congrArg (Option.map _) ends, ownsReleased.write List.mem_cons_self _,
            asked, ?_⟩
          intro other member
          rw [mem_write_of_ne _ _ (ne_of_mem_of_not_mem member fresh)]
          exact kept other (List.mem_cons_of_mem _ member)
      have freedMem : ∀ other ∈ rest ++ others, (respNodeFree middle node).mem other = pool.mem other := by
        intro other member
        exact (mem_write_of_ne _ _ (ne_of_mem_of_not_mem member fresh)).trans (keptMiddle other member)
      obtain ⟨last, freed, ends, ownsLast, asked, kept⟩ := releaseLoop_spec fuel (by omega)
        ownsMiddle.nodeFree (linked.congr fun other member => freedMem other (List.mem_append_left _ member))
      refine ⟨last, freed, ?_, ownsLast, asked.trans askedMiddle, fun other member => ?_⟩
      · rw [releaseLoop, releases, Option.bind_some]
        exact ends
      · exact (kept other member).trans (freedMem other (List.mem_append_right _ member))

/-- There are no more nodes in use than were asked for. -/
theorem Owns.length_used (owns : Owns malloc base old pool free used) : used.length ≤ pool.asked := by
  have all : used ⊆ List.range pool.asked := fun node member => List.mem_range.mpr (owns.below member)
  have nodup := (List.nodup_append.mp owns.nodup).2.1
  have shorter := (List.subperm_of_subset nodup all).length_le
  rwa [List.length_range] at shorter

/-- **A call that fails has released what it built.** -/
theorem failWith_spec {α : Type} (status : Verdict α) {list : NodeList} {values : List (RespValue Slice)}
    (owns : Owns malloc base old pool free used)
    (linked : ListAt pool.mem values none list.head list.tail used) : ∃ pool' free',
      failWith status pool list = some (status, pool') ∧ Owns malloc base old pool' free' [] ∧
        pool'.asked = pool.asked := by
  have few := owns.length_used
  rw [← List.append_nil used] at owns
  obtain ⟨pool', free', releases, owned, asked, -⟩ :=
    releaseLoop_spec (pool.asked + 1) (Nat.lt_succ_of_le few) owns linked
  exact ⟨pool', free', by rw [failWith, respNodeListRelease, releases]; rfl, owned, asked⟩

/-- **`resp_value_release`** gives back all nodes of a value. -/
theorem respValueRelease_spec {value : RespValue Slice} {out : RespValueT}
    (owns : Owns malloc base old pool free used) (held : ValueAt pool.mem value out used) :
    ∃ pool' free', respValueRelease pool out = some pool' ∧ Owns malloc base old pool' free' [] ∧
      pool'.asked = pool.asked := by
  unfold respValueRelease
  split
  · rename_i isArray
    cases value with
    | array elements =>
      obtain ⟨list, rfl, -, linked⟩ := held
      have few := owns.length_used
      rw [← List.append_nil used] at owns
      obtain ⟨pool', free', releases, owned, asked, -⟩ :=
        releaseLoop_spec (pool.asked + 1) (Nat.lt_succ_of_le few) owns linked
      exact ⟨pool', free', releases, owned, asked⟩
    | _ =>
      obtain ⟨rfl, -⟩ := held
      cases isArray.1
  · rename_i notArray
    have none : used = [] := by
      cases value with
      | array elements =>
        obtain ⟨list, rfl, -, linked⟩ := held
        cases elements with
        | nil => exact linked.2.2
        | cons value values =>
          obtain ⟨node, _, _, isHead, -⟩ := linked
          exact absurd ⟨rfl, by rw [arrayOut, isHead]; rfl⟩ notArray
      | _ => exact held.2
    subst none
    exact ⟨pool, free, rfl, owns, rfl⟩

end Ownership

/-! ### Reading -/

section Reading

variable {mem : Nat → RespNode} (buf : Nat → UInt8)

/-- The fields of a value that is not an array are read back. -/
theorem scalarOf_outOf {value : RespValue Slice} (notArray : ∀ elements, value ≠ .array elements) :
    (outOf value).type ≠ .array ∧
      scalarOf buf (outOf value).type (outOf value).integer (outOf value).bulk = value.contents buf := by
  cases value with
  | array elements => exact absurd rfl (notArray elements)
  | _ => exact ⟨nofun, rfl⟩

theorem readNodes_of_listAt : ∀ (fuel : Nat) {values : List (RespValue Slice)}
    {prev head tail : Option Nat} {nodes : List Nat}, nodes.length < fuel →
      ListAt mem values prev head tail nodes →
      readNodes mem buf fuel head = some (RespValue.mapAll (readSlice buf) values)
  | 0, _, _, _, _, _, enough, _ => absurd enough (Nat.not_lt_zero _)
  | fuel + 1, values, prev, head, tail, nodes, enough, linked => by
    cases values with
    | nil =>
      obtain ⟨rfl, -, -⟩ := linked
      rfl
    | cons value values =>
      obtain ⟨node, inner, rest, rfl, rfl, -, held, linked⟩ := linked
      rw [List.length_cons, List.length_append] at enough
      have later := readNodes_of_listAt fuel (by omega) linked
      rw [readNodes, later]
      by_cases isArray : ∃ elements, value = .array elements
      · obtain ⟨elements, rfl⟩ := isArray
        obtain ⟨list, isOut, -, below⟩ := held
        have nested := readNodes_of_listAt fuel (by omega) below
        have type : (mem node).type = .array := congrArg RespValueT.type isOut
        have child : (mem node).childHead = list.head := congrArg RespValueT.arrayHead isOut
        rw [if_pos type, child, nested]
        rfl
      · have isOut : nodeValue (mem node) = outOf value := by
          cases value with
          | array elements => exact absurd ⟨elements, rfl⟩ isArray
          | _ => exact held.1
        obtain ⟨notArray, reads⟩ := scalarOf_outOf buf fun elements same => isArray ⟨elements, same⟩
        rw [← isOut] at notArray reads
        rw [if_neg (show (mem node).type ≠ .array from notArray)]
        exact congrArg (fun value => some (value :: RespValue.mapAll (readSlice buf) values)) reads

/-- **The handlers read the value that was parsed.** -/
theorem readValue_of_valueAt {pool : NodePool} {value : RespValue Slice} {out : RespValueT}
    {nodes : List Nat} (few : nodes.length ≤ pool.asked) (held : ValueAt pool.mem value out nodes) :
    readValue pool buf out = some (value.contents buf) := by
  by_cases isArray : ∃ elements, value = .array elements
  · obtain ⟨elements, rfl⟩ := isArray
    obtain ⟨list, rfl, -, linked⟩ := held
    have read := readNodes_of_listAt buf (pool.asked + 1) (Nat.lt_succ_of_le few) linked
    rw [readValue, if_pos (show (arrayOut list).type = .array from rfl)]
    exact congrArg (Option.map RespValue.array) read
  · have isOut : out = outOf value := by
      cases value with
      | array elements => exact absurd ⟨elements, rfl⟩ isArray
      | _ => exact held.1
    obtain ⟨notArray, reads⟩ := scalarOf_outOf buf fun elements same => isArray ⟨elements, same⟩
    rw [isOut, readValue, if_neg notArray, reads]

end Reading

end Zedis.Resp

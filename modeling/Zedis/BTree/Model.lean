/-
**The sorted-set B-tree (`src/btree.c`, `include/btree.h`).**

Nodes and members live in two arrays and refer to each other by index; `UINT32_MAX` is no index
(`none`). Entries are in the leaves, ordered by score and then by the member's bytes; an inner node
has the scores of its separators only. An insertion splits full nodes on its way down. Adding a
present member stores its new score and rebuilds the whole tree from the member array.

The recursive functions are modelled with a bound on their depth; `none` is a recursion that has not
returned within it. Scores are compared and copied, never computed with, so `int64_t` is `Int`.
-/

import Zedis.Arena.Regions
import Zedis.Lib.Cells
import Zedis.Resp.Format

namespace Zedis.BTree

open Zedis.Lib Zedis.Arena Zedis.Reply

/-- `ZEDIS_BTREE_MAX_MEMBER`. -/
def zedisBtreeMaxMember : Nat := 48

/-- `ZEDIS_BTREE_MAX_ENTRIES`. -/
def zedisBtreeMaxEntries : Nat := 4096

/-- `BTREE_MAX_KEYS`. -/
def btreeMaxKeys : Nat := 3

/-- `sizeof(btree_node_t)`. -/
def btreeNodeSize : Nat := 64

/-- `sizeof(btree_member_t)`. -/
def btreeMemberSize : Nat := 64

/-- `btree_node_t`; `slots` is the union of `children` and `values`. -/
structure BtreeNode where
  keys : Nat → Int
  slots : Nat → Nat
  isLeaf : Bool
  count : Nat

/-- A node of zeroed memory. -/
def zeroNode : BtreeNode := ⟨fun _ => 0, fun _ => 0, false, 0⟩

/-- `btree_member_t`; `data` is the first `len` bytes of its array. -/
structure BtreeMember where
  data : Bytes
  score : Int
deriving DecidableEq, Repr

/-- A member of zeroed memory. -/
def zeroMember : BtreeMember := ⟨[], 0⟩

/-- `zedis_btree_t`, less `node_count`, which nothing reads. -/
structure ZedisBtree where
  nodes : Nat → BtreeNode
  members : Nat → BtreeMember
  root : Option Nat
  freeNode : Nat
  memberCount : Nat
  maxNodes : Nat
  maxMembers : Nat

/-- `alloc_node`. -/
def allocNode (tree : ZedisBtree) : Option (Nat × ZedisBtree) :=
  if tree.freeNode ≥ tree.maxNodes then none
  else some (tree.freeNode, { tree with freeNode := tree.freeNode + 1 })

/-- `alloc_member`. -/
def allocMember (tree : ZedisBtree) (score : Int) (member : Bytes) : Option (Nat × ZedisBtree) :=
  if tree.memberCount ≥ tree.maxMembers then none
  else
    let len := if member.length < zedisBtreeMaxMember then member.length else zedisBtreeMaxMember - 1
    some (tree.memberCount, { tree with
      memberCount := tree.memberCount + 1
      members := Function.update tree.members tree.memberCount ⟨member.take len, score⟩ })

/-- `member_equal`. -/
def memberEqual (m : BtreeMember) (member : Bytes) : Bool :=
  m.data.length == member.length && memcmp member.length m.data member == 0

/-- `score_member_cmp`. -/
def scoreMemberCmp (scoreA : Int) (a : BtreeMember) (scoreB : Int) (memberB : Bytes) : Int :=
  if scoreA ≠ scoreB then if scoreA < scoreB then -1 else 1
  else bytesCmp a.data memberB

/-! ### Lookup -/

/-- `find_in_leaf`. -/
def findInLeaf (tree : ZedisBtree) (node : BtreeNode) (member : Bytes) : Option Nat :=
  (cells node.slots node.count).find? fun midx => memberEqual (tree.members midx) member

/-- A loop that stops at the first hit of a search that may not return. -/
def firstHit (search : Nat → Option (Option Nat)) : List Nat → Option (Option Nat)
  | [] => some none
  | child :: rest => (search child).bind fun found =>
    match found with
    | some hit => some (some hit)
    | none => firstHit search rest

/-- `find_member`: `some none` is the return value `-1`. -/
def findMember (tree : ZedisBtree) (member : Bytes) : Nat → Nat → Option (Option Nat)
  | 0, _ => none
  | fuel + 1, nodeIdx =>
    let node := tree.nodes nodeIdx
    if node.isLeaf then some (findInLeaf tree node member)
    else firstHit (findMember tree member fuel) (cells node.slots (node.count + 1))

/-! ### Insertion -/

/-- `leaf_insert_at`. -/
def leafInsertAt (node : BtreeNode) (pos : Nat) (score : Int) (midx : Nat) : BtreeNode :=
  { node with
    keys := Function.update (shiftUp pos node.count node.keys) pos score
    slots := Function.update (shiftUp pos node.count node.slots) pos midx
    count := node.count + 1 }

/-- `leaf_find_pos`. -/
def leafFindPos (tree : ZedisBtree) (node : BtreeNode) (score : Int) (midx : Nat) : Nat :=
  (List.range node.count).findIdx fun i => decide (scoreMemberCmp score (tree.members midx)
    (node.keys i) (tree.members (node.slots i)).data ≤ 0)

/-- The zeroed node after the copy loops of a split: `n` keys and `m` slots from `start` on. -/
def upperPart (node : BtreeNode) (start n m : Nat) (isLeaf : Bool) : BtreeNode :=
  ⟨fun i => if i < n then node.keys (start + i) else 0,
    fun i => if i < m then node.slots (start + i) else 0, isLeaf, n⟩

/-- A split at `mid`: the index of the new node, the promoted score and the tree. -/
def moveUpper (tree : ZedisBtree) (idx mid : Nat) (right : BtreeNode) :
    Option (Nat × Int × ZedisBtree) :=
  (allocNode tree).map fun (rightIdx, tree) =>
    (rightIdx, (tree.nodes idx).keys mid, { tree with
      nodes := Function.update (Function.update tree.nodes rightIdx right) idx
        { tree.nodes idx with count := mid } })

/-- `split_leaf`. -/
def splitLeaf (tree : ZedisBtree) (leafIdx : Nat) : Option (Nat × Int × ZedisBtree) :=
  let leaf := tree.nodes leafIdx
  let mid := (leaf.count + 1) / 2
  let n := leaf.count - mid
  moveUpper tree leafIdx mid (upperPart leaf mid n n true)

/-- `split_internal`. -/
def splitInternal (tree : ZedisBtree) (nodeIdx : Nat) : Option (Nat × Int × ZedisBtree) :=
  let node := tree.nodes nodeIdx
  let mid := btreeMaxKeys / 2
  let n := node.count - mid - 1
  moveUpper tree nodeIdx mid (upperPart node (mid + 1) n (n + 1) false)

/-- The split of a full node, by its kind. -/
def splitNode (tree : ZedisBtree) (idx : Nat) : Option (Nat × Int × ZedisBtree) :=
  if (tree.nodes idx).isLeaf then splitLeaf tree idx else splitInternal tree idx

/-- `insert_into_leaf`. -/
def insertIntoLeaf (tree : ZedisBtree) (leafIdx : Nat) (score : Int) (midx : Nat) :
    Int × ZedisBtree :=
  let leaf := tree.nodes leafIdx
  (0, { tree with
    nodes := Function.update tree.nodes leafIdx
      (leafInsertAt leaf (leafFindPos tree leaf score midx) score midx) })

/-- The loop `while (i < count && score > keys[i]) i++`. -/
def descendAt (node : BtreeNode) (score : Int) : Nat :=
  (List.range node.count).findIdx fun i => !decide (score > node.keys i)

/-- The parent with the promoted score at `i` and the new sibling after its child `i`. -/
def adoptAt (node : BtreeNode) (i : Nat) (promoted : Int) (sibling : Nat) : BtreeNode :=
  { node with
    keys := Function.update (shiftUp i node.count node.keys) i promoted
    slots := Function.update (shiftUp (i + 1) (node.count + 1) node.slots) (i + 1) sibling
    count := node.count + 1 }

/-- The tree whose node `idx` takes the sibling. -/
def adopt (tree : ZedisBtree) (idx i : Nat) (promoted : Int) (sibling : Nat) : ZedisBtree :=
  { tree with
    nodes := Function.update tree.nodes idx (adoptAt (tree.nodes idx) i promoted sibling) }

/-- `insert_nonfull`: the return value and the tree. -/
def insertNonfull (score : Int) (midx : Nat) :
    Nat → ZedisBtree → Nat → Option (Int × ZedisBtree)
  | 0, _, _ => none
  | fuel + 1, tree, nodeIdx =>
    let node := tree.nodes nodeIdx
    if node.isLeaf then some (insertIntoLeaf tree nodeIdx score midx)
    else
      let i := descendAt node score
      let child := node.slots i
      if (tree.nodes child).count ≥ btreeMaxKeys then
        match splitNode tree child with
        | none => some (-1, tree)
        | some (sibling, promoted, tree) =>
          insertNonfull score midx fuel (adopt tree nodeIdx i promoted sibling)
            (if score ≥ promoted then sibling else child)
      else insertNonfull score midx fuel tree child

/-- The tree under a new root with two children. -/
def installRoot (tree : ZedisBtree) (root newRoot sibling : Nat) (promoted : Int) : ZedisBtree :=
  { tree with
    root := some newRoot
    nodes := Function.update tree.nodes newRoot { zeroNode with
      count := 1
      keys := Function.update zeroNode.keys 0 promoted
      slots := Function.update (Function.update zeroNode.slots 0 root) 1 sibling } }

/-- `insert_entry`: the return value and the tree. -/
def insertEntry (tree : ZedisBtree) (score : Int) (midx : Nat) : Option (Int × ZedisBtree) :=
  match tree.root with
  | none =>
    match allocNode tree with
    | none => some (-1, tree)
    | some (root, tree) =>
      let node := tree.nodes root
      some (0, { tree with
        root := some root
        nodes := Function.update tree.nodes root
          ⟨Function.update node.keys 0 score, Function.update node.slots 0 midx, true, 1⟩ })
  | some root =>
    if (tree.nodes root).count < btreeMaxKeys then
      insertNonfull score midx tree.maxNodes tree root
    else
      let (newRoot, tree) : Option Nat × ZedisBtree :=
        match allocNode tree with
        | none => (none, tree)
        | some (idx, tree) => (some idx, tree)
      match splitNode tree root, newRoot with
      | none, _ => some (-1, tree)
      | some (_, _, tree), none => some (-1, tree)
      | some (sibling, promoted, tree), some newRoot =>
        let tree := installRoot tree root newRoot sibling promoted
        if score ≥ promoted then insertNonfull score midx tree.maxNodes tree sibling
        else insertNonfull score midx tree.maxNodes tree newRoot

/-! ### Traversal -/

/-- `count_entries`. -/
def countEntries (tree : ZedisBtree) : Nat → Nat → Option Nat
  | 0, _ => none
  | fuel + 1, nodeIdx =>
    let node := tree.nodes nodeIdx
    if node.isLeaf then some node.count
    else (cells node.slots (node.count + 1)).foldlM
      (fun total child => (countEntries tree fuel child).map fun n => total + n) 0

/-- The loop body of `collect_inorder` at a leaf: the running index and the reply so far. A segment
that does not fit is printed past the end of the reply and not counted. -/
def collectMember (tree : ZedisBtree) (start stop : Int) (replyCap : Nat) (state : Int × Bytes)
    (midx : Nat) : Int × Bytes :=
  let segment := bulkText (tree.members midx).data
  (state.1 + 1,
    if start ≤ state.1 ∧ state.1 ≤ stop then
      if state.2.length + segment.length < replyCap then state.2 ++ segment else state.2
    else state.2)

/-- `collect_inorder`. -/
def collectInorder (tree : ZedisBtree) (start stop : Int) (replyCap : Nat) :
    Nat → Int × Bytes → Nat → Option (Int × Bytes)
  | 0, _, _ => none
  | fuel + 1, state, nodeIdx =>
    let node := tree.nodes nodeIdx
    if node.isLeaf then
      some ((cells node.slots node.count).foldl (collectMember tree start stop replyCap) state)
    else (cells node.slots (node.count + 1)).foldlM
      (collectInorder tree start stop replyCap fuel) state

/-! ### The interface -/

/-- `zedis_btree_init`: `none` is the return value `-1`. -/
def zedisBtreeInit (arena : ZedisArena) (maxMembers : Nat) : Option (ZedisBtree × ZedisArena) :=
  if maxMembers = 0 then none
  else
    let maxMembers := if maxMembers > zedisBtreeMaxEntries then zedisBtreeMaxEntries else maxMembers
    let maxNodes := maxMembers * 2 + 4
    (zedisArenaCalloc arena maxNodes btreeNodeSize 64).bind fun (_, arena) =>
      (zedisArenaCalloc arena maxMembers btreeMemberSize 64).map fun (_, arena) =>
        (⟨fun _ => zeroNode, fun _ => zeroMember, none, 0, 0, maxNodes, maxMembers⟩, arena)

/-- `rebuild_btree`: the results of the insertions are ignored. -/
def rebuildBtree (tree : ZedisBtree) : Option ZedisBtree :=
  (List.range tree.memberCount).foldlM
    (fun tree i => (insertEntry tree (tree.members i).score i).map Prod.snd)
    { tree with nodes := fun _ => zeroNode, root := none, freeNode := 0 }

/-- The member that a lookup from the root finds. -/
def lookupMember (tree : ZedisBtree) (member : Bytes) : Option (Option Nat) :=
  match tree.root with
  | none => some none
  | some root => findMember tree member tree.maxNodes root

/-- `zedis_btree_add`: the return value and the tree. -/
def zedisBtreeAdd (tree : ZedisBtree) (score : Int) (member : Bytes) : Option (Int × ZedisBtree) :=
  if member.length = 0 ∨ member.length ≥ zedisBtreeMaxMember then some (-1, tree)
  else
    (lookupMember tree member).bind fun found =>
      match found with
      | some existing =>
        (rebuildBtree { tree with
          members := Function.update tree.members existing
            { tree.members existing with score := score } }).map fun tree => (0, tree)
      | none =>
        match allocMember tree score member with
        | none => some (-1, tree)
        | some (midx, tree) => insertEntry tree score midx

/-- `zedis_btree_score`: `some none` is the return value `-1`. -/
def zedisBtreeScore (tree : ZedisBtree) (member : Bytes) : Option (Option Int) :=
  (lookupMember tree member).map fun found => found.map fun midx => (tree.members midx).score

/-- `zedis_btree_range`: the first `*reply_len` bytes of the reply; `some none` is the return value
`-1`. -/
def zedisBtreeRange (tree : ZedisBtree) (startIdx stopIdx : Int) (replyCap : Nat) :
    Option (Option Bytes) :=
  match tree.root with
  | none => some (formatted (arrayHeader 0) replyCap)
  | some root =>
    (countEntries tree tree.maxNodes root).bind fun total =>
      let startIdx := if startIdx < 0 then 0 else startIdx
      let stopIdx := if stopIdx < 0 ∨ stopIdx ≥ total then (total : Int) - 1 else stopIdx
      if startIdx > stopIdx ∨ total = 0 then some (formatted (arrayHeader 0) replyCap)
      else
        match formatted (arrayHeader (stopIdx - startIdx + 1).toNat) replyCap with
        | none => some none
        | some header =>
          (collectInorder tree startIdx stopIdx replyCap tree.maxNodes (0, header) root).map
            fun state => some state.2

/-! ### Runs -/

/-- A `zedis_btree_add` call. -/
structure BtreeAdd where
  score : Int
  member : Bytes
deriving DecidableEq, Repr

/-- The tree a call leaves. -/
def btreeStep (tree : ZedisBtree) (op : BtreeAdd) : Option ZedisBtree :=
  (zedisBtreeAdd tree op.score op.member).map Prod.snd

end Zedis.BTree

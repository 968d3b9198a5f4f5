/-
**Where the allocations of a slab lie.**

Every block of a pool is on the free list or held by one allocation (`PoolInv`). The data of block `i`
begin `8` bytes into it, and an allocation may be as long as the block: it then covers the link word
of block `i + 1`, or leaves the storage if there is no such block. It never reaches the data of block
`i + 1`, so two allocations never overlap (`SlabInv.apart`).

Hence the ranges are apart, inside the storage and off the links of free blocks exactly if each
allocation leaves room for the link word or is followed by a block that is held
(`noOverlap_iff`), and `noOverlap_throughout_iff` says which calls keep this.
-/

import Zedis.Lib.Linked
import Zedis.Lib.Run
import Zedis.Slab.Model

namespace Zedis.Slab

open Zedis.Lib Zedis.Arena

/-- The byte at `j` of the storage belongs to the allocation. -/
def Live.Occupies (a : Live) (j : Nat) : Prop := a.ptr ≤ j ∧ j < a.ptr + a.size

/-- A block on the free list. -/
def OnFreeList (pool : ZedisSlabPool) (block : Nat) : Prop := Linked pool.next pool.freeList block

/-- Every block of every pool is on its free list. -/
def AllFree (slab : ZedisSlab) : Prop :=
  ∀ k, ∀ i < (slab.pools k).blockCount, OnFreeList (slab.pools k) (i * (slab.pools k).blockSize)

/-- **No overlap**: the allocations are apart, inside the storage, and off the link words of the free
blocks. -/
structure NoOverlap (s : SlabState) : Prop where
  apart : s.live.Pairwise fun a b => a.pool = b.pool → ∀ j, a.Occupies j → ¬ b.Occupies j
  inside : ∀ a ∈ s.live, ∀ j, a.Occupies j →
    j < (s.slab.pools a.pool).blockSize * (s.slab.pools a.pool).blockCount
  links : ∀ a ∈ s.live, ∀ block, OnFreeList (s.slab.pools a.pool) block → ∀ j, a.Occupies j →
    ¬ (block ≤ j ∧ j < block + slabDataOffset)

/-- The allocation leaves room for the link word, or the block after it is held as well. -/
def Roomy (live : List Live) (a : Live) : Prop :=
  a.size + slabDataOffset ≤ slabClass a.pool ∨
    ∃ b ∈ live, b.pool = a.pool ∧ b.ptr = a.ptr + slabClass a.pool

instance (live : List Live) (a : Live) : Decidable (Roomy live a) :=
  inferInstanceAs (Decidable (_ ∨ _))

/-- The condition on a call: an allocation is `Roomy` where it is made, and no block is freed behind
one that leaves no room for its link word. -/
def SafeStep (s : SlabState) : SlabOp → Prop
  | .alloc size => ∀ k ∈ poolForSize size, ∀ block ∈ (s.slab.pools k).freeList,
      Roomy s.live ⟨k, block + slabDataOffset, size⟩
  | .free a => a ∈ s.live → ∀ b ∈ s.live, b.pool = a.pool ∧ a.ptr = b.ptr + slabClass b.pool →
      b.size + slabDataOffset ≤ slabClass b.pool

instance (s : SlabState) (op : SlabOp) : Decidable (SafeStep s op) :=
  match op with
  | .alloc size => inferInstanceAs (Decidable (∀ k ∈ poolForSize size,
      ∀ block ∈ (s.slab.pools k).freeList, Roomy s.live ⟨k, block + slabDataOffset, size⟩))
  | .free a => inferInstanceAs (Decidable (a ∈ s.live → ∀ b ∈ s.live,
      b.pool = a.pool ∧ a.ptr = b.ptr + slabClass b.pool →
        b.size + slabDataOffset ≤ slabClass b.pool))

/-! ### One pool -/

/-- A block that an allocation holds. -/
def Taken (live : List Live) (k : Fin 4) (block : Nat) : Prop :=
  ∃ a ∈ live, a.pool = k ∧ a.ptr = block + slabDataOffset

/-- **The blocks of a pool** are those on its free list and those taken. -/
structure PoolInv (pool : ZedisSlabPool) (size : Nat) (taken : Nat → Prop) (free : List Nat) :
    Prop where
  size_eq : pool.blockSize = size
  listed : Listed pool.next pool.freeList free
  nodup : free.Nodup
  blocks : ∀ block, block ∈ free ∨ taken block ↔ ∃ i < pool.blockCount, block = i * size
  apart : ∀ block ∈ free, ¬ taken block

section Pool

variable {pool : ZedisSlabPool} {size block : Nat} {taken taken' : Nat → Prop} {free : List Nat}

theorem PoolInv.congr (inv : PoolInv pool size taken free) (same : ∀ block, taken' block ↔ taken block) :
    PoolInv pool size taken' free :=
  ⟨inv.size_eq, inv.listed, inv.nodup, fun block => by rw [same]; exact inv.blocks block,
    fun block member => by rw [same]; exact inv.apart block member⟩

/-- The pool after its first free block was handed out. -/
def popped (pool : ZedisSlabPool) (block : Nat) : ZedisSlabPool :=
  { pool with freeList := pool.next block, next := Function.update pool.next block none }

theorem PoolInv.popped (inv : PoolInv pool size taken (block :: free)) :
    PoolInv (popped pool block) size (fun other => taken other ∨ other = block) free where
  size_eq := inv.size_eq
  listed := inv.listed.2.update (List.nodup_cons.mp inv.nodup).1 none
  nodup := (List.nodup_cons.mp inv.nodup).2
  blocks := fun other => by
    refine Iff.trans ?_ (inv.blocks other)
    rw [List.mem_cons]
    tauto
  apart := fun other member => by
    rintro (held | rfl)
    · exact inv.apart other (List.mem_cons_of_mem _ member) held
    · exact (List.nodup_cons.mp inv.nodup).1 member

theorem PoolInv.freed (inv : PoolInv pool size taken free) (held : taken block) :
    PoolInv (freeBlock pool (block + slabDataOffset)) size (fun other => taken other ∧ other ≠ block)
      (block :: free) := by
  have outside : block ∉ free := fun member => inv.apart block member held
  refine ⟨inv.size_eq, ⟨rfl, ?_⟩, List.nodup_cons.mpr ⟨outside, inv.nodup⟩, fun other => ?_,
    fun other member => ?_⟩
  · simp only [freeBlock, Nat.add_sub_cancel, Function.update_self]
    exact inv.listed.update outside _
  · refine Iff.trans ?_ (inv.blocks other)
    rw [List.mem_cons]
    by_cases same : other = block
    · subst same
      tauto
    · tauto
  · rintro ⟨still, differs⟩
    rcases List.mem_cons.mp member with same | old
    · exact differs same
    · exact inv.apart other old still

theorem linkBlocks_listed (positive : 0 < size) (n : Nat) :
    Listed (linkBlocks size n).1 (linkBlocks size n).2 ((List.range n).reverse.map (· * size)) := by
  induction n with
  | zero => rfl
  | succ n ih =>
    rw [List.range_succ, List.reverse_append, List.reverse_singleton, List.singleton_append,
      List.map_cons]
    refine ⟨rfl, ?_⟩
    simp only [linkBlocks, Function.update_self]
    refine ih.update (fun member => ?_) _
    obtain ⟨i, earlier, same⟩ := List.mem_map.mp member
    have less : i < n := List.mem_range.mp (List.mem_reverse.mp earlier)
    exact absurd (Nat.eq_of_mul_eq_mul_right positive same) (Nat.ne_of_lt less)

theorem initPool_inv {arena arena' : ZedisArena} {count : Nat} (positive : 0 < size)
    (made : initPool arena size count = some (pool, arena')) :
    ∃ free, PoolInv pool size (fun _ => False) free := by
  obtain ⟨⟨storage, granted⟩, -, same⟩ := Option.map_eq_some_iff.mp made
  cases same
  refine ⟨_, rfl, linkBlocks_listed positive count, ?_, fun block => ?_, fun _ _ => not_false⟩
  · refine (List.nodup_reverse.mpr List.nodup_range).map fun i j same => ?_
    exact Nat.eq_of_mul_eq_mul_right positive same
  · simp only [List.mem_map, List.mem_reverse, List.mem_range, or_false, eq_comm]

end Pool

/-! ### The slab -/

/-- **The invariant of a slab.** -/
structure SlabInv (s : SlabState) : Prop where
  pools : ∀ k, ∃ free, PoolInv (s.slab.pools k) (slabClass k) (Taken s.live k) free
  nodup : s.live.Nodup
  unique : ∀ a ∈ s.live, ∀ b ∈ s.live, a.pool = b.pool → a.ptr = b.ptr → a = b
  fits : ∀ a ∈ s.live, slabDataOffset ≤ a.ptr ∧ poolForSize a.size = some a.pool

section Slab

variable {s next : SlabState} {a b : Live} {k : Fin 4} {size block : Nat}

theorem slabClass_ge (k : Fin 4) : 64 ≤ slabClass k := by
  revert k
  decide

theorem poolForSize_le (chosen : poolForSize size = some k) : size ≤ slabClass k := by
  unfold poolForSize at chosen
  split at chosen
  · cases chosen
    assumption
  · split at chosen
    · cases chosen
      assumption
    · split at chosen
      · cases chosen
        assumption
      · split at chosen
        · cases chosen
          assumption
        · cases chosen

theorem zedisSlabInit_inv {arena arena' : ZedisArena} {count64 count256 count512 count4096 : Nat}
    {slab : ZedisSlab}
    (made : zedisSlabInit arena count64 count256 count512 count4096 = some (slab, arena')) :
    SlabInv ⟨slab, []⟩ := by
  obtain ⟨⟨pool0, arena0⟩, made0, made⟩ := Option.bind_eq_some_iff.mp made
  obtain ⟨⟨pool1, arena1⟩, made1, made⟩ := Option.bind_eq_some_iff.mp made
  obtain ⟨⟨pool2, arena2⟩, made2, made⟩ := Option.bind_eq_some_iff.mp made
  obtain ⟨⟨pool3, arena3⟩, made3, same⟩ := Option.map_eq_some_iff.mp made
  cases same
  have none_taken : ∀ (k : Fin 4) {pool : ZedisSlabPool},
      (∃ free, PoolInv pool (slabClass k) (fun _ => False) free) →
        ∃ free, PoolInv pool (slabClass k) (Taken [] k) free := by
    rintro k pool ⟨free, inv⟩
    exact ⟨free, inv.congr fun block => by simp [Taken]⟩
  refine ⟨fun k => ?_, List.nodup_nil, nofun, nofun⟩
  match k with
  | 0 => exact none_taken 0 (initPool_inv (by decide) made0)
  | 1 => exact none_taken 1 (initPool_inv (by decide) made1)
  | 2 => exact none_taken 2 (initPool_inv (by decide) made2)
  | 3 => exact none_taken 3 (initPool_inv (by decide) made3)

/-! #### Calls -/

theorem alloc_cases (s : SlabState) (size : Nat) :
    (∀ k ∈ poolForSize size, (s.slab.pools k).freeList = none) ∨
      ∃ k block, poolForSize size = some k ∧ (s.slab.pools k).freeList = some block := by
  cases chosen : poolForSize size with
  | none => exact Or.inl nofun
  | some k =>
    cases head : (s.slab.pools k).freeList with
    | none =>
      refine Or.inl fun j isChosen => ?_
      cases isChosen
      exact head
    | some block => exact Or.inr ⟨k, block, rfl, head⟩

theorem zedisSlabAlloc_none (slab : ZedisSlab) (chosen : poolForSize size = some k)
    (empty : (slab.pools k).freeList = none) : zedisSlabAlloc slab size = (none, slab) := by
  simp only [zedisSlabAlloc, chosen, allocBlock, empty, Function.update_eq_self]

theorem zedisSlabAlloc_some (slab : ZedisSlab) (chosen : poolForSize size = some k)
    (head : (slab.pools k).freeList = some block) : zedisSlabAlloc slab size =
      (some (block + slabDataOffset),
        ⟨Function.update slab.pools k (popped (slab.pools k) block)⟩) := by
  simp only [zedisSlabAlloc, chosen, allocBlock, head]
  rfl

/-- A block that is freed at once is where it was. -/
theorem zedisSlabFree_popped (slab : ZedisSlab) (chosen : poolForSize size = some k)
    (head : (slab.pools k).freeList = some block) :
    zedisSlabFree ⟨Function.update slab.pools k (popped (slab.pools k) block)⟩
      (some (block + slabDataOffset)) size = slab := by
  have back : freeBlock (popped (slab.pools k) block) (block + slabDataOffset) = slab.pools k := by
    simp only [freeBlock, popped, Nat.add_sub_cancel, Function.update_idem, Function.update_eq_self,
      ← head]
  simp only [zedisSlabFree, chosen, Function.update_self, Function.update_idem, back,
    Function.update_eq_self]

theorem slabStep_alloc_none (empty : ∀ k ∈ poolForSize size, (s.slab.pools k).freeList = none) :
    slabStep s (.alloc size) = some s := by
  simp only [slabStep, zedisSlabAlloc]
  cases chosen : poolForSize size with
  | none => rfl
  | some k => simp only [allocBlock, empty k chosen, Function.update_eq_self]

theorem slabStep_alloc_some (chosen : poolForSize size = some k)
    (head : (s.slab.pools k).freeList = some block) : slabStep s (.alloc size) =
      some ⟨⟨Function.update s.slab.pools k (popped (s.slab.pools k) block)⟩,
        ⟨k, block + slabDataOffset, size⟩ :: s.live⟩ := by
  simp only [slabStep, zedisSlabAlloc, chosen, allocBlock, head]
  rfl

theorem slabStep_free (held : a ∈ s.live) (chosen : poolForSize a.size = some a.pool) :
    slabStep s (.free a) =
      some ⟨⟨Function.update s.slab.pools a.pool (freeBlock (s.slab.pools a.pool) a.ptr)⟩,
        s.live.erase a⟩ := by
  simp only [slabStep, if_pos held, zedisSlabFree, chosen]

theorem SlabInv.block_taken (inv : SlabInv s) (member : a ∈ s.live) :
    Taken s.live a.pool (a.ptr - slabDataOffset) :=
  ⟨a, member, rfl, (Nat.sub_add_cancel (inv.fits a member).1).symm⟩

/-- What is handed out is not held. -/
theorem SlabInv.alloc (inv : SlabInv s) (chosen : poolForSize size = some k)
    (head : (s.slab.pools k).freeList = some block) :
    SlabInv ⟨⟨Function.update s.slab.pools k (Slab.popped (s.slab.pools k) block)⟩,
      ⟨k, block + slabDataOffset, size⟩ :: s.live⟩ := by
  obtain ⟨free, pool⟩ := inv.pools k
  obtain ⟨rest, rfl⟩ : ∃ rest, free = block :: rest := by
    have listed := pool.listed
    rw [head] at listed
    cases free with
    | nil => cases listed
    | cons first rest =>
      rw [Option.some.inj listed.1]
      exact ⟨rest, rfl⟩
  have fresh : ∀ b ∈ s.live, b.pool = k → b.ptr ≠ block + slabDataOffset := fun b member inPool same =>
    pool.apart block List.mem_cons_self ⟨b, member, inPool, same⟩
  refine ⟨fun j => ?_, ?_, ?_, ?_⟩
  · by_cases same : j = k
    · subst same
      refine ⟨rest, ?_⟩
      simp only [Function.update_self]
      refine pool.popped.congr fun other => ?_
      simp only [Taken, List.mem_cons, exists_eq_or_imp, Nat.add_right_cancel_iff, true_and]
      rw [or_comm, eq_comm]
    · obtain ⟨free, other⟩ := inv.pools j
      refine ⟨free, ?_⟩
      simp only [Function.update_of_ne same]
      refine other.congr fun block => ?_
      simp only [Taken, List.mem_cons, exists_eq_or_imp, Ne.symm same, false_and, false_or]
  · refine List.nodup_cons.mpr ⟨fun member => ?_, inv.nodup⟩
    exact fresh _ member rfl rfl
  · intro a inLive b inLive' samePool samePtr
    rcases List.mem_cons.mp inLive with rfl | old
    · rcases List.mem_cons.mp inLive' with rfl | old'
      · rfl
      · exact absurd samePtr.symm (fresh b old' samePool.symm)
    · rcases List.mem_cons.mp inLive' with rfl | old'
      · exact absurd samePtr (fresh a old samePool)
      · exact inv.unique a old b old' samePool samePtr
  · intro a inLive
    rcases List.mem_cons.mp inLive with rfl | old
    · exact ⟨Nat.le_add_left _ _, chosen⟩
    · exact inv.fits a old

theorem SlabInv.free (inv : SlabInv s) (held : a ∈ s.live) :
    SlabInv ⟨⟨Function.update s.slab.pools a.pool (freeBlock (s.slab.pools a.pool) a.ptr)⟩,
      s.live.erase a⟩ := by
  have left : ∀ b, b ∈ s.live.erase a ↔ b ≠ a ∧ b ∈ s.live := fun b => inv.nodup.mem_erase_iff
  have isBlock := Nat.sub_add_cancel (inv.fits a held).1
  refine ⟨fun j => ?_, inv.nodup.erase a, ?_, ?_⟩
  · by_cases same : j = a.pool
    · subst same
      obtain ⟨free, pool⟩ := inv.pools a.pool
      have freed := pool.freed (inv.block_taken held)
      rw [isBlock] at freed
      refine ⟨(a.ptr - slabDataOffset) :: free, ?_⟩
      simp only [Function.update_self]
      refine freed.congr fun other => ⟨?_, ?_⟩
      · rintro ⟨b, member, inPool, ptr⟩
        obtain ⟨differs, old⟩ := (left b).mp member
        refine ⟨⟨b, old, inPool, ptr⟩, fun same => differs ?_⟩
        refine inv.unique b old a held inPool ?_
        rw [ptr, same, isBlock]
      · rintro ⟨⟨b, old, inPool, ptr⟩, differs⟩
        refine ⟨b, (left b).mpr ⟨fun same => differs ?_, old⟩, inPool, ptr⟩
        rw [← same, ptr, Nat.add_sub_cancel]
    · obtain ⟨free, other⟩ := inv.pools j
      refine ⟨free, ?_⟩
      simp only [Function.update_of_ne same]
      refine other.congr fun block => ⟨?_, ?_⟩
      · rintro ⟨b, member, inPool, ptr⟩
        exact ⟨b, ((left b).mp member).2, inPool, ptr⟩
      · rintro ⟨b, old, inPool, ptr⟩
        exact ⟨b, (left b).mpr ⟨fun isFreed => same (by rw [← inPool, isFreed]), old⟩, inPool, ptr⟩
  · intro b inLive c inLive' samePool samePtr
    exact inv.unique b ((left b).mp inLive).2 c ((left c).mp inLive').2 samePool samePtr
  · intro b inLive
    exact inv.fits b ((left b).mp inLive).2

/-- The order of the allocations does not matter. -/
theorem SlabInv.perm {slab : ZedisSlab} {live live' : List Live} (inv : SlabInv ⟨slab, live⟩)
    (same : live.Perm live') : SlabInv ⟨slab, live'⟩ := by
  have members : ∀ a, a ∈ live' ↔ a ∈ live := fun a => same.mem_iff.symm
  refine ⟨fun k => ?_, same.nodup_iff.mp inv.nodup, ?_, ?_⟩
  · obtain ⟨free, pool⟩ := inv.pools k
    refine ⟨free, pool.congr fun block => ?_⟩
    simp only [Taken, members]
  · intro a inLive b inLive'
    exact inv.unique a ((members a).mp inLive) b ((members b).mp inLive')
  · intro a inLive
    exact inv.fits a ((members a).mp inLive)

/-- **Nothing is held exactly if every block is free.** -/
theorem SlabInv.allFree_iff (inv : SlabInv s) : AllFree s.slab ↔ s.live = [] := by
  constructor
  · intro allFree
    refine List.eq_nil_iff_forall_not_mem.mpr fun a held => ?_
    obtain ⟨free, pool⟩ := inv.pools a.pool
    have taken := inv.block_taken held
    obtain ⟨i, inside, isBlock⟩ := (pool.blocks _).mp (Or.inr taken)
    have onList := allFree a.pool i inside
    rw [pool.size_eq, ← isBlock] at onList
    exact pool.apart _ (pool.listed.linked_iff.mp onList) taken
  · intro none k i inside
    obtain ⟨free, pool⟩ := inv.pools k
    refine pool.listed.linked_iff.mpr ?_
    rcases (pool.blocks (i * (s.slab.pools k).blockSize)).mpr ⟨i, inside, by rw [pool.size_eq]⟩ with
      isFree | ⟨a, held, -⟩
    · exact isFree
    · rw [none] at held
      cases held

/-- A pool of which nothing is held has a free block unless it has no block. -/
theorem SlabInv.freeList_eq_none_iff (inv : SlabInv s) (unheld : ∀ a ∈ s.live, a.pool ≠ k) :
    (s.slab.pools k).freeList = none ↔ (s.slab.pools k).blockCount = 0 := by
  obtain ⟨free, pool⟩ := inv.pools k
  have blocks : ∀ block, block ∈ free ↔ ∃ i < (s.slab.pools k).blockCount, block = i * slabClass k := by
    intro block
    rw [← pool.blocks block, or_iff_left]
    exact fun ⟨a, held, inPool, _⟩ => unheld a held inPool
  have listed := pool.listed
  cases free with
  | nil =>
    refine iff_of_true listed (Nat.eq_zero_of_not_pos fun positive => ?_)
    cases (blocks (0 * slabClass k)).mpr ⟨0, positive, rfl⟩
  | cons first rest =>
    refine iff_of_false (by rw [listed.1]; exact nofun) fun zero => ?_
    obtain ⟨i, inside, -⟩ := (blocks first).mp List.mem_cons_self
    rw [zero] at inside
    cases inside

/-- **Every call keeps the invariant.** -/
theorem SlabInv.step (inv : SlabInv s) {op : SlabOp} (taken : slabStep s op = some next) :
    SlabInv next := by
  cases op with
  | alloc size =>
    rcases alloc_cases s size with empty | ⟨k, block, chosen, head⟩
    · rw [slabStep_alloc_none empty] at taken
      cases taken
      exact inv
    · rw [slabStep_alloc_some chosen head] at taken
      cases taken
      exact inv.alloc chosen head
  | free a =>
    by_cases held : a ∈ s.live
    · rw [slabStep_free held (inv.fits a held).2] at taken
      cases taken
      exact inv.free held
    · simp only [slabStep, if_neg held] at taken
      cases taken
      exact inv

end Slab

/-! ### Ranges -/

section Ranges

variable {s next : SlabState} {a b : Live}

/-- Later blocks begin after the whole of an earlier one. -/
theorem stride_le (size : Nat) {i j : Nat} (less : i < j) : i * size + size ≤ j * size := by
  rw [← Nat.succ_mul]
  exact Nat.mul_le_mul_right size less

/-- The block of an allocation, and what the allocation reaches. -/
theorem SlabInv.place (inv : SlabInv s) (member : a ∈ s.live) :
    ∃ i < (s.slab.pools a.pool).blockCount, a.ptr = i * slabClass a.pool + slabDataOffset ∧
      a.size ≤ slabClass a.pool := by
  obtain ⟨free, pool⟩ := inv.pools a.pool
  obtain ⟨i, inside, isBlock⟩ := (pool.blocks _).mp (Or.inr (inv.block_taken member))
  refine ⟨i, inside, ?_, poolForSize_le (inv.fits a member).2⟩
  rw [← isBlock, Nat.sub_add_cancel (inv.fits a member).1]

/-- **Two allocations never overlap.** -/
theorem SlabInv.apart (inv : SlabInv s) :
    s.live.Pairwise fun a b => a.pool = b.pool → ∀ j, a.Occupies j → ¬ b.Occupies j := by
  refine List.Pairwise.imp_of_mem ?_ inv.nodup
  intro a b member member' differs samePool j occupies occupies'
  obtain ⟨i, -, ptr, size⟩ := inv.place member
  obtain ⟨i', -, ptr', size'⟩ := inv.place member'
  rw [← samePool] at ptr' size'
  obtain ⟨above, below⟩ := occupies
  obtain ⟨above', below'⟩ := occupies'
  rcases Nat.lt_trichotomy i i' with less | rfl | more
  · have := stride_le (slabClass a.pool) less
    omega
  · exact differs (inv.unique a member b member' samePool (ptr.trans ptr'.symm))
  · have := stride_le (slabClass a.pool) more
    omega

/-- A free block is not the block of an allocation. -/
theorem SlabInv.free_block (inv : SlabInv s) {k : Fin 4} {block : Nat}
    (onList : OnFreeList (s.slab.pools k) block) :
    ∃ m, block = m * slabClass k ∧
      ∀ b ∈ s.live, b.pool = k → b.ptr ≠ m * slabClass k + slabDataOffset := by
  obtain ⟨free, pool⟩ := inv.pools k
  have inFree := pool.listed.linked_iff.mp onList
  obtain ⟨m, -, rfl⟩ := (pool.blocks block).mp (Or.inl inFree)
  exact ⟨m, rfl, fun b held inPool ptr => pool.apart _ inFree ⟨b, held, inPool, ptr⟩⟩

/-- Without overlap, the block after an allocation that leaves no room for its link is held. -/
theorem NoOverlap.roomy (overlap : NoOverlap s) (inv : SlabInv s) (member : a ∈ s.live) :
    Roomy s.live a := by
  by_cases room : a.size + slabDataOffset ≤ slabClass a.pool
  · exact Or.inl room
  obtain ⟨free, pool⟩ := inv.pools a.pool
  obtain ⟨i, inside, ptr, size⟩ := inv.place member
  have large := slabClass_ge a.pool
  -- the first byte after the block of `a`
  have occupies : a.Occupies ((i + 1) * slabClass a.pool) := by
    unfold Live.Occupies slabDataOffset at *
    rw [Nat.succ_mul]
    omega
  have within := overlap.inside a member _ occupies
  rw [pool.size_eq, Nat.mul_comm (slabClass a.pool)] at within
  have isBlock : i + 1 < (s.slab.pools a.pool).blockCount := Nat.lt_of_mul_lt_mul_right within
  rcases (pool.blocks ((i + 1) * slabClass a.pool)).mpr ⟨i + 1, isBlock, rfl⟩ with inFree | held
  · refine absurd ⟨Nat.le_refl _, ?_⟩
      (overlap.links a member _ (pool.listed.linked_iff.mpr inFree) _ occupies)
    exact Nat.lt_add_of_pos_right (by decide)
  · obtain ⟨b, held, inPool, ptr'⟩ := held
    refine Or.inr ⟨b, held, inPool, ?_⟩
    rw [ptr', ptr, Nat.succ_mul]
    omega

/-- **The exact condition for a state.** -/
theorem noOverlap_iff (inv : SlabInv s) : NoOverlap s ↔ ∀ a ∈ s.live, Roomy s.live a := by
  refine ⟨fun overlap a member => overlap.roomy inv member, fun roomy => ⟨inv.apart, ?_, ?_⟩⟩
  · intro a member j ⟨above, below⟩
    obtain ⟨free, pool⟩ := inv.pools a.pool
    obtain ⟨i, inside, ptr, size⟩ := inv.place member
    have large := slabClass_ge a.pool
    rw [pool.size_eq, Nat.mul_comm (slabClass a.pool)]
    rcases roomy a member with room | ⟨b, held, inPool, ptr'⟩
    · have := stride_le (slabClass a.pool) inside
      omega
    · obtain ⟨i', inside', place', -⟩ := inv.place held
      rw [inPool] at inside' place'
      have := stride_le (slabClass a.pool) inside'
      unfold slabDataOffset at *
      omega
  · rintro a member block onList j ⟨above, below⟩ ⟨start, stop⟩
    obtain ⟨i, -, ptr, size⟩ := inv.place member
    obtain ⟨m, rfl, unheld⟩ := inv.free_block onList
    have large := slabClass_ge a.pool
    rcases Nat.lt_trichotomy m i with less | rfl | more
    · have := stride_le (slabClass a.pool) less
      unfold slabDataOffset at *
      omega
    · exact unheld a member rfl ptr
    · have after := stride_le (slabClass a.pool) more
      rcases roomy a member with room | ⟨b, held, inPool, ptr'⟩
      · unfold slabDataOffset at *
        omega
      · rcases Nat.lt_or_eq_of_le (show i + 1 ≤ m from more) with later | rfl
        · have := stride_le (slabClass a.pool) later
          rw [Nat.succ_mul] at this
          unfold slabDataOffset at *
          omega
        · refine unheld b held inPool ?_
          rw [ptr', ptr, Nat.succ_mul]
          omega

end Ranges

/-! ### Whole runs -/

section Runs

variable {s next : SlabState} {op : SlabOp}

theorem Roomy.cons {live : List Live} {a : Live} (roomy : Roomy live a) (b : Live) :
    Roomy (b :: live) a :=
  roomy.imp_right fun ⟨c, held, after⟩ => ⟨c, List.mem_cons_of_mem _ held, after⟩

/-- A block is not the one after itself. -/
theorem roomy_cons_self {live : List Live} {a : Live} : Roomy (a :: live) a ↔ Roomy live a := by
  refine ⟨fun roomy => roomy.imp_right fun ⟨b, held, inPool, ptr⟩ => ?_, fun roomy => roomy.cons a⟩
  rcases List.mem_cons.mp held with rfl | old
  · have := slabClass_ge b.pool
    omega
  · exact ⟨b, old, inPool, ptr⟩

/-- What a free leaves, if every allocation was roomy before it. -/
theorem roomy_erase_iff (inv : SlabInv s) (roomy : ∀ b ∈ s.live, Roomy s.live b) {a : Live}
    (held : a ∈ s.live) :
    (∀ b ∈ s.live.erase a, Roomy (s.live.erase a) b) ↔
      ∀ b ∈ s.live, b.pool = a.pool ∧ a.ptr = b.ptr + slabClass b.pool →
        b.size + slabDataOffset ≤ slabClass b.pool := by
  have left : ∀ b, b ∈ s.live.erase a ↔ b ≠ a ∧ b ∈ s.live := fun b => inv.nodup.mem_erase_iff
  constructor
  · rintro roomy' b inLive ⟨inPool, before⟩
    have differs : b ≠ a := by
      rintro rfl
      have := slabClass_ge b.pool
      omega
    rcases roomy' b ((left b).mpr ⟨differs, inLive⟩) with room | ⟨c, inLive', inPool', after⟩
    · exact room
    · obtain ⟨notFreed, old⟩ := (left c).mp inLive'
      exact absurd (inv.unique c old a held (inPool'.trans inPool) (after.trans before.symm)) notFreed
  · intro safe b inLive
    obtain ⟨-, old⟩ := (left b).mp inLive
    rcases roomy b old with room | ⟨c, held', inPool, after⟩
    · exact Or.inl room
    · by_cases isFreed : c = a
      · subst isFreed
        exact Or.inl (safe b old ⟨inPool.symm, after⟩)
      · exact Or.inr ⟨c, (left c).mpr ⟨isFreed, held'⟩, inPool, after⟩

/-- **One call keeps the ranges apart exactly if it is safe.** -/
theorem noOverlap_step_iff (inv : SlabInv s) (overlap : NoOverlap s)
    (taken : slabStep s op = some next) : NoOverlap next ↔ SafeStep s op := by
  have roomy := (noOverlap_iff inv).mp overlap
  rw [noOverlap_iff (inv.step taken)]
  cases op with
  | alloc size =>
    rcases alloc_cases s size with empty | ⟨k, block, chosen, head⟩
    · rw [slabStep_alloc_none empty] at taken
      cases taken
      refine iff_of_true roomy fun k chosen block head => ?_
      cases (empty k chosen).symm.trans head
    · rw [slabStep_alloc_some chosen head] at taken
      cases taken
      simp only [SafeStep, chosen, Option.mem_some_iff, forall_eq', head]
      constructor
      · intro roomy'
        exact roomy_cons_self.mp (roomy' _ List.mem_cons_self)
      · intro safe a inLive
        rcases List.mem_cons.mp inLive with rfl | old
        · exact roomy_cons_self.mpr safe
        · exact (roomy a old).cons _
  | free a =>
    by_cases held : a ∈ s.live
    · rw [slabStep_free held (inv.fits a held).2] at taken
      cases taken
      refine (roomy_erase_iff inv roomy held).trans ?_
      exact ⟨fun safe _ => safe, fun safe => safe held⟩
    · simp only [slabStep, if_neg held] at taken
      cases taken
      exact iff_of_true roomy fun held' => absurd held' held

/-- **The ranges stay apart exactly in the runs of safe calls.** -/
theorem noOverlap_throughout_iff {arena arena' : ZedisArena}
    {count64 count256 count512 count4096 : Nat} {slab : ZedisSlab}
    (made : zedisSlabInit arena count64 count256 count512 count4096 = some (slab, arena'))
    {ops : List SlabOp} {last : SlabState} (run : Run slabStep Always ⟨slab, []⟩ ops last) :
    (∀ n middle, Run slabStep Always ⟨slab, []⟩ (ops.take n) middle → NoOverlap middle) ↔
      Run slabStep SafeStep ⟨slab, []⟩ ops last :=
  run.throughout_iff SlabInv NoOverlap (fun _ _ _ inv _ taken => inv.step taken)
    (fun _ _ _ inv overlap taken => noOverlap_step_iff inv overlap taken) (zedisSlabInit_inv made)
    ((noOverlap_iff (zedisSlabInit_inv made)).mpr nofun)

end Runs

/-- Two blocks of `4096` bytes: `4088` bytes in the second one, and `4096` in the first, which are
freed. -/
theorem noOverlap_throughout_two : ∃ slab arena' last,
    zedisSlabInit ⟨2 ^ 20, 0⟩ 1 1 1 2 = some (slab, arena') ∧
      Run slabStep SafeStep ⟨slab, []⟩ [.alloc 4088, .alloc 4096, .free ⟨3, 8, 4096⟩] last ∧
      ∀ n middle, Run slabStep Always ⟨slab, []⟩
        ([.alloc 4088, .alloc 4096, .free ⟨3, 8, 4096⟩].take n) middle → NoOverlap middle := by
  obtain ⟨last, returned⟩ := Option.isSome_iff_exists.mp
    (show ((zedisSlabInit ⟨2 ^ 20, 0⟩ 1 1 1 2).bind fun made =>
      replay (fun s op => if SafeStep s op then slabStep s op else none) ⟨made.1, []⟩
        [.alloc 4088, .alloc 4096, .free ⟨3, 8, 4096⟩]).isSome by decide +kernel)
  obtain ⟨⟨slab, arena'⟩, made, returned⟩ := Option.bind_eq_some_iff.mp returned
  have safe := Run.of_guarded returned
  exact ⟨slab, arena', last, made, safe,
    (noOverlap_throughout_iff made (safe.mono fun _ _ _ => trivial)).mpr safe⟩

/-- **An allocation leaves the storage**: the first block a fresh pool hands out is its last one, and
`4096` bytes of data end `8` bytes after it. -/
theorem alloc_leaves_storage :
    ¬ ∀ arena count64 count256 count512 count4096 slab arena',
      zedisSlabInit arena count64 count256 count512 count4096 = some (slab, arena') →
        ∀ ops last, Run slabStep Always ⟨slab, []⟩ ops last → NoOverlap last := by
  intro noOverlap
  have played : ((zedisSlabInit ⟨2 ^ 20, 0⟩ 1 1 1 2).bind fun made =>
      (replay slabStep ⟨made.1, []⟩ [.alloc 4096]).map fun s =>
        (s.live, (s.slab.pools 3).blockSize, (s.slab.pools 3).blockCount)) =
      some ([⟨3, 4104, 4096⟩], 4096, 2) := by decide +kernel
  obtain ⟨⟨slab, arena'⟩, made, played⟩ := Option.bind_eq_some_iff.mp played
  obtain ⟨last, returned, facts⟩ := Option.map_eq_some_iff.mp played
  obtain ⟨live, size_count⟩ := Prod.mk.inj facts
  obtain ⟨size, count⟩ := Prod.mk.inj size_count
  have overlap := noOverlap _ _ _ _ _ slab arena' made _ last (Run.of_replay (fun _ _ _ => trivial) returned)
  have inside := overlap.inside ⟨3, 4104, 4096⟩ (by rw [live]; exact List.mem_cons_self) 8192
    ⟨by decide, by decide⟩
  rw [size, count] at inside
  exact absurd inside (by decide)

end Zedis.Slab

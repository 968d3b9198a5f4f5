/-
**The free list and the held blocks of a pool partition its blocks.**

The invariant of a slab says which blocks are free and which are held as sets. Here both are lists
without repetition, and together they are the blocks of the pool in some order
(`SlabInv.partition`); their numbers then add up, so the free list is empty exactly if as many blocks are
held as the pool has (`SlabInv.freeList_none_iff`). A free may name any size of the size class it was
allocated from.
-/

import Zedis.Slab.Layout
import Mathlib.Data.List.Perm.Basic

namespace Zedis.Slab

open Zedis.Lib Zedis.Arena

/-- A call; a free names the allocation it passes, and a size. -/
inductive SlabCall
  | alloc (size : Nat)
  | free (a : Live) (size : Nat)
deriving DecidableEq, Repr

/-- The state a call leaves. -/
def slabCall (s : SlabState) : SlabCall → Option SlabState
  | .alloc size => slabStep s (.alloc size)
  | .free a size => some ⟨zedisSlabFree s.slab (some a.ptr) size, s.live.erase a⟩

/-- A free passes an allocation that is held, with a size of its size class. -/
def Matching (s : SlabState) : SlabCall → Prop
  | .alloc _ => True
  | .free a size => a ∈ s.live ∧ poolForSize size = some a.pool

instance (s : SlabState) (call : SlabCall) : Decidable (Matching s call) :=
  match call with
  | .alloc _ => inferInstanceAs (Decidable True)
  | .free a size => inferInstanceAs (Decidable (a ∈ s.live ∧ poolForSize size = some a.pool))

/-- The blocks of a pool that are held. -/
def heldBlocks (live : List Live) (k : Fin 4) : List Nat :=
  (live.filter fun a => a.pool = k).map fun a => a.ptr - slabDataOffset

/-- All blocks of a pool. -/
def allBlocks (pool : ZedisSlabPool) : List Nat :=
  (List.range pool.blockCount).map (· * pool.blockSize)

/-! ### One state -/

section State

variable {s next : SlabState} {k : Fin 4}

theorem SlabInv.mem_heldBlocks (inv : SlabInv s) {block : Nat} :
    block ∈ heldBlocks s.live k ↔ Taken s.live k block := by
  constructor
  · intro member
    obtain ⟨a, inPool, isBlock⟩ := List.mem_map.mp member
    obtain ⟨held, inPool⟩ := List.mem_filter.mp inPool
    refine ⟨a, held, of_decide_eq_true inPool, ?_⟩
    rw [← isBlock, Nat.sub_add_cancel (inv.fits a held).1]
  · rintro ⟨a, held, inPool, ptr⟩
    refine List.mem_map.mpr ⟨a, List.mem_filter.mpr ⟨held, decide_eq_true inPool⟩, ?_⟩
    rw [ptr, Nat.add_sub_cancel]

theorem SlabInv.heldBlocks_nodup (inv : SlabInv s) : (heldBlocks s.live k).Nodup := by
  refine (inv.nodup.filter _).map_on fun a inPool b inPool' same => ?_
  obtain ⟨held, inPool⟩ := List.mem_filter.mp inPool
  obtain ⟨held', inPool'⟩ := List.mem_filter.mp inPool'
  have low := (inv.fits a held).1
  have low' := (inv.fits b held').1
  refine inv.unique a held b held' ?_ (by omega)
  rw [of_decide_eq_true inPool, of_decide_eq_true inPool']

/-- **The partition of a pool**: the links from the free list visit `free` and end. -/
structure Partitioned (pool : ZedisSlabPool) (held free : List Nat) : Prop where
  listed : Listed pool.next pool.freeList free
  free_nodup : free.Nodup
  held_nodup : held.Nodup
  disjoint : ∀ block ∈ free, block ∉ held
  all : (free ++ held).Perm (allBlocks pool)

theorem SlabInv.partition (inv : SlabInv s) (k : Fin 4) :
    ∃ free, Partitioned (s.slab.pools k) (heldBlocks s.live k) free := by
  obtain ⟨free, pool⟩ := inv.pools k
  have apart : ∀ block ∈ free, block ∉ heldBlocks s.live k := fun block isFree held =>
    pool.apart block isFree (inv.mem_heldBlocks.mp held)
  have positive : 0 < slabClass k := Nat.lt_of_lt_of_le (by decide) (slabClass_ge k)
  refine ⟨free, pool.listed, pool.nodup, inv.heldBlocks_nodup, apart, ?_⟩
  refine (List.perm_ext_iff_of_nodup ?_ ?_).mpr fun block => ?_
  · exact pool.nodup.append inv.heldBlocks_nodup fun block isFree held => apart block isFree held
  · refine List.nodup_range.map fun i j same => ?_
    rw [pool.size_eq] at same
    exact Nat.eq_of_mul_eq_mul_right positive same
  · rw [List.mem_append, inv.mem_heldBlocks, pool.blocks, allBlocks, pool.size_eq, List.mem_map]
    simp only [List.mem_range, eq_comm]

/-- **The free list is empty exactly if all blocks are held.** -/
theorem SlabInv.freeList_none_iff (inv : SlabInv s) :
    (s.slab.pools k).freeList = none ↔
      (heldBlocks s.live k).length = (s.slab.pools k).blockCount := by
  obtain ⟨free, parts⟩ := inv.partition k
  have total := parts.all.length_eq
  rw [List.length_append, allBlocks, List.length_map, List.length_range] at total
  have listed := parts.listed
  cases free with
  | nil => exact iff_of_true listed (by simpa using total)
  | cons first rest =>
    rw [List.length_cons] at total
    refine iff_of_false (fun none => ?_) (by omega)
    cases none.symm.trans listed.1

end State

/-! ### Sizes -/

theorem poolForSize_isSome {size : Nat} (small : size ≤ 4096) : ∃ k, poolForSize size = some k := by
  have last : size ≤ slabClass 3 := small
  unfold poolForSize
  rw [if_pos last]
  split_ifs <;> exact ⟨_, rfl⟩

theorem zedisSlabAlloc_null_iff {slab : ZedisSlab} {size : Nat} {k : Fin 4}
    (chosen : poolForSize size = some k) :
    (zedisSlabAlloc slab size).1 = none ↔ (slab.pools k).freeList = none := by
  cases head : (slab.pools k).freeList with
  | none => rw [zedisSlabAlloc_none slab chosen head]
  | some block =>
    rw [zedisSlabAlloc_some slab chosen head]
    exact iff_of_false (Option.some_ne_none _) (Option.some_ne_none _)

/-! ### Whole runs -/

section Runs

variable {s next : SlabState} {call : SlabCall}

theorem SlabInv.called (inv : SlabInv s) (matching : Matching s call)
    (taken : slabCall s call = some next) : SlabInv next := by
  cases call with
  | alloc size => exact inv.step (show slabStep s (.alloc size) = some next from taken)
  | free a size =>
    obtain ⟨held, chosen⟩ := matching
    simp only [slabCall, zedisSlabFree, chosen] at taken
    cases taken
    exact inv.free held

/-- No call changes the number of blocks. -/
theorem slabCall_blockCount (taken : slabCall s call = some next) (k : Fin 4) :
    (next.slab.pools k).blockCount = (s.slab.pools k).blockCount := by
  have kept : ∀ (j : Fin 4) (pool : ZedisSlabPool), pool.blockCount = (s.slab.pools j).blockCount →
      (Function.update s.slab.pools j pool k).blockCount = (s.slab.pools k).blockCount := by
    intro j pool same
    by_cases isPool : k = j
    · rw [isPool, Function.update_self, same]
    · rw [Function.update_of_ne isPool]
  cases call with
  | alloc size =>
    rcases alloc_cases s size with empty | ⟨j, block, chosen, head⟩
    · cases (slabStep_alloc_none empty).symm.trans taken
      rfl
    · cases (slabStep_alloc_some chosen head).symm.trans taken
      exact kept j _ rfl
  | free a size =>
    cases chosen : poolForSize size with
    | none =>
      simp only [slabCall, zedisSlabFree, chosen] at taken
      cases taken
      rfl
    | some j =>
      simp only [slabCall, zedisSlabFree, chosen] at taken
      cases taken
      exact kept j _ rfl

/-- **In every run of matching calls, the free lists and the held blocks partition the pools**, and an
allocation gets `NULL` exactly if its pool has all blocks held. -/
theorem free_lists_partition {arena arena' : ZedisArena}
    {count64 count256 count512 count4096 : Nat} {slab : ZedisSlab}
    (made : zedisSlabInit arena count64 count256 count512 count4096 = some (slab, arena'))
    {calls : List SlabCall} {last : SlabState} (run : Run slabCall Matching ⟨slab, []⟩ calls last) :
    (∀ k, (last.slab.pools k).blockCount = (slab.pools k).blockCount ∧
      ∃ free, Partitioned (last.slab.pools k) (heldBlocks last.live k) free) ∧
    ∀ size ≤ 4096, ∃ k, poolForSize size = some k ∧
      ((zedisSlabAlloc last.slab size).1 = none ↔
        (heldBlocks last.live k).length = (slab.pools k).blockCount) := by
  obtain ⟨inv, counts⟩ := run.invariant
    (fun s => SlabInv s ∧ ∀ k, (s.slab.pools k).blockCount = (slab.pools k).blockCount)
    (fun _ _ _ before matching taken => ⟨before.1.called matching taken, fun k =>
      (slabCall_blockCount taken k).trans (before.2 k)⟩)
    ⟨zedisSlabInit_inv made, fun _ => rfl⟩
  refine ⟨fun k => ⟨counts k, inv.partition k⟩, fun size small => ?_⟩
  obtain ⟨k, chosen⟩ := poolForSize_isSome small
  refine ⟨k, chosen, ?_⟩
  rw [zedisSlabAlloc_null_iff chosen, inv.freeList_none_iff, counts k]

end Runs

/-- A slab with two blocks in each pool, on an arena of 64 KiB. -/
def twoBlocks : Option (ZedisSlab × ZedisArena) := zedisSlabInit ⟨65536, 0⟩ 2 2 2 2

/-- Two allocations, the first of which is freed with another size of its class. -/
theorem free_lists_partition_two : ∃ slab arena last,
    zedisSlabInit ⟨65536, 0⟩ 2 2 2 2 = some (slab, arena) ∧
      Run slabCall Matching ⟨slab, []⟩
        [.alloc 100, .alloc 200, .free ⟨slab256, 264, 100⟩ 256] last ∧
      ∀ k, ∃ free, Partitioned (last.slab.pools k) (heldBlocks last.live k) free := by
  obtain ⟨⟨slab, arena⟩, made⟩ := Option.isSome_iff_exists.mp
    (show twoBlocks.isSome by decide +kernel)
  have played : (twoBlocks.bind fun made => replay
      (fun s call => if Matching s call then slabCall s call else none) ⟨made.1, []⟩
        [.alloc 100, .alloc 200, .free ⟨slab256, 264, 100⟩ 256]).isSome := by decide +kernel
  rw [made, Option.bind_some] at played
  obtain ⟨last, returned⟩ := Option.isSome_iff_exists.mp played
  have run := Run.of_guarded returned
  exact ⟨slab, arena, last, made, run, fun k => ((free_lists_partition made run).1 k).2⟩

end Zedis.Slab

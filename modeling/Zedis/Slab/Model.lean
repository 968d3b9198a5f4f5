/-
**The slab allocator (`src/slab.c`, `include/slab.h`).**

Four pools of blocks of `64`, `256`, `512` and `4096` bytes. The blocks of a pool follow each other in
its storage at a distance of `block_size`. A free block starts with the link to the next free block;
an allocation is the `data` of a block, which begin after the link word.

A block, and the pointer to its data, are modelled by their offsets in the storage of their pool. The
`compare_exchange` loops are those of one thread, whose exchange succeeds.
-/

import Zedis.Arena.Regions
import Mathlib.Logic.Function.Basic

namespace Zedis.Slab

open Zedis.Arena

/-- `offsetof(slab_block_t, data)`, which is also the size of the link word. -/
def slabDataOffset : Nat := 8

/-- `ZEDIS_SLAB_64`, `ZEDIS_SLAB_256`, `ZEDIS_SLAB_512` and `ZEDIS_SLAB_4096`, by the pool. -/
def slabClass : Fin 4 → Nat
  | 0 => 64
  | 1 => 256
  | 2 => 512
  | 3 => 4096

/-- `zedis_slab_pool_t`, with the link words of its blocks; `storage` is the offset in the arena. -/
structure ZedisSlabPool where
  blockSize : Nat
  blockCount : Nat
  freeList : Option Nat
  storage : Nat
  next : Nat → Option Nat

/-- `zedis_slab_t`. -/
structure ZedisSlab where
  pools : Fin 4 → ZedisSlabPool

/-- The loop of `init_pool` over the first `n` blocks: their links, and `head`. -/
def linkBlocks (stride : Nat) : Nat → (Nat → Option Nat) × Option Nat
  | 0 => (fun _ => none, none)
  | i + 1 =>
    let (next, head) := linkBlocks stride i
    (Function.update next (i * stride) head, some (i * stride))

/-- `init_pool`: `none` is the return value `-1`. -/
def initPool (arena : ZedisArena) (blockSize blockCount : Nat) :
    Option (ZedisSlabPool × ZedisArena) :=
  (zedisArenaAlloc arena (blockSize * blockCount % sizeMod) 64).map fun (storage, arena) =>
    let (next, head) := linkBlocks blockSize blockCount
    (⟨blockSize, blockCount, head, storage, next⟩, arena)

/-- `zedis_slab_init`: `none` is the return value `-1`. -/
def zedisSlabInit (arena : ZedisArena) (count64 count256 count512 count4096 : Nat) :
    Option (ZedisSlab × ZedisArena) :=
  (initPool arena (slabClass 0) count64).bind fun (pool0, arena) =>
    (initPool arena (slabClass 1) count256).bind fun (pool1, arena) =>
      (initPool arena (slabClass 2) count512).bind fun (pool2, arena) =>
        (initPool arena (slabClass 3) count4096).map fun (pool3, arena) =>
          (⟨fun
            | 0 => pool0
            | 1 => pool1
            | 2 => pool2
            | 3 => pool3⟩, arena)

/-- `pool_for_size`. -/
def poolForSize (size : Nat) : Option (Fin 4) :=
  if size ≤ slabClass 0 then some 0
  else if size ≤ slabClass 1 then some 1
  else if size ≤ slabClass 2 then some 2
  else if size ≤ slabClass 3 then some 3
  else none

/-- The pool of the blocks of `ZEDIS_SLAB_256` bytes. -/
def slab256 : Fin 4 := 1

/-- The pool of the blocks of `ZEDIS_SLAB_512` bytes. -/
def slab512 : Fin 4 := 2

/-- The pool of the blocks of `ZEDIS_SLAB_4096` bytes. -/
def slab4096 : Fin 4 := 3

/-- The code of `zedis_slab_alloc` after the choice of the pool. -/
def allocBlock (pool : ZedisSlabPool) : Option Nat × ZedisSlabPool :=
  match pool.freeList with
  | none => (none, pool)
  | some head =>
    (some (head + slabDataOffset),
      { pool with freeList := pool.next head, next := Function.update pool.next head none })

/-- `zedis_slab_alloc`: the pointer, `none` for `NULL`. -/
def zedisSlabAlloc (slab : ZedisSlab) (size : Nat) : Option Nat × ZedisSlab :=
  match poolForSize size with
  | none => (none, slab)
  | some k =>
    let (ptr, pool) := allocBlock (slab.pools k)
    (ptr, ⟨Function.update slab.pools k pool⟩)

/-- The code of `zedis_slab_free` after the choice of the pool. -/
def freeBlock (pool : ZedisSlabPool) (ptr : Nat) : ZedisSlabPool :=
  let block := ptr - slabDataOffset
  { pool with freeList := some block, next := Function.update pool.next block pool.freeList }

/-- `zedis_slab_free`. -/
def zedisSlabFree (slab : ZedisSlab) (ptr : Option Nat) (size : Nat) : ZedisSlab :=
  match ptr, poolForSize size with
  | none, _ => slab
  | some _, none => slab
  | some ptr, some k => ⟨Function.update slab.pools k (freeBlock (slab.pools k) ptr)⟩

/-! ### Runs -/

/-- An allocation that has not been freed. -/
structure Live where
  pool : Fin 4
  ptr : Nat
  size : Nat
deriving DecidableEq, Repr

/-- A slab, and the allocations its callers hold. -/
structure SlabState where
  slab : ZedisSlab
  live : List Live

/-- A call. -/
inductive SlabOp
  | alloc (size : Nat)
  | free (a : Live)
deriving DecidableEq, Repr

/-- The state a call leaves. Only what is held is freed, with the size it was asked for. -/
def slabStep (s : SlabState) : SlabOp → Option SlabState
  | .alloc size =>
    let (ptr, slab) := zedisSlabAlloc s.slab size
    match poolForSize size, ptr with
    | some k, some ptr => some ⟨slab, ⟨k, ptr, size⟩ :: s.live⟩
    | _, _ => some ⟨slab, s.live⟩
  | .free a =>
    if a ∈ s.live then some ⟨zedisSlabFree s.slab (some a.ptr) a.size, s.live.erase a⟩ else some s

end Zedis.Slab

/-
**Several threads on one slab (`src/slab.c`).**

The free list of a pool is atomic: `zedis_slab_alloc` and `zedis_slab_free` load it, prepare a link and
exchange it, and start again if another thread was faster. Here any number of threads are inside these
calls at the same time. A step is one access of one thread: a load, a read or a write of a link, or an
exchange, which may fail without a reason (`atomic_compare_exchange_weak`).

`slab_linearizable`: as long as at most one thread at a time is in the loop of `zedis_slab_alloc` for a
pool, the calls answer as if they were made one after the other, in the order of their exchanges; every
block is in one place, and no link is read while another thread is about to write it. Any number of
threads may be in `zedis_slab_free`.

Two threads in the loop are too many: between the read of `head->next` and the exchange, the block may
have been taken and given back, and the exchange then succeeds with a link that is out of date
(`two_allocators_share`).
-/

import Zedis.Lib.Simulation
import Zedis.Slab.Layout
import Mathlib.Data.Fintype.Basic

namespace Zedis.Slab

open Zedis.Lib Zedis.Arena

/-! ### The two calls, access by access -/

/-- A block: its pool, and its offset in the storage. -/
abbrev Cell := Fin 4 × Nat

/-- Where a thread stands, with its local variables. In `zedis_slab_alloc`: `head` is loaded and is not
`NULL`; `head->next` is read; the exchange has succeeded. In `zedis_slab_free`: `head` is loaded;
`block->next` is written. -/
inductive ThreadAt
  | idle
  | allocLoaded (k : Fin 4) (size head : Nat)
  | allocNext (k : Fin 4) (size head : Nat) (next : Option Nat)
  | allocTaken (k : Fin 4) (head : Nat)
  | freeLoaded (k : Fin 4) (size block : Nat) (head : Option Nat)
  | freeLinked (k : Fin 4) (size block : Nat) (head : Option Nat)
deriving DecidableEq, Repr

/-- A slab, its threads, and the blocks whose data the callers hold. -/
structure SharedSlab (τ : Type) where
  slab : ZedisSlab
  threads : τ → ThreadAt
  held : List Cell

/-- The next access of a thread; a call begins with its load of the free list. -/
inductive SlabAccess
  | alloc (size : Nat)
  | readNext
  | exchange (spurious : Bool)
  | clearNext
  | free (ptr : Option Nat) (size : Nat)
  | writeNext
deriving DecidableEq, Repr

/-- A call. -/
inductive SlabRequest
  | alloc (size : Nat)
  | free (ptr : Option Nat) (size : Nat)
deriving DecidableEq, Repr

section Moves

variable {τ : Type}

/-- The link of a block. -/
def SharedSlab.link (s : SharedSlab τ) (cell : Cell) : Option Nat := (s.slab.pools cell.1).next cell.2

/-- The free list of a pool. -/
def SharedSlab.head (s : SharedSlab τ) (k : Fin 4) : Option Nat := (s.slab.pools k).freeList

/-- A pool with the link of a block written. -/
def withLink (pool : ZedisSlabPool) (block : Nat) (link : Option Nat) : ZedisSlabPool :=
  { pool with next := Function.update pool.next block link }

/-- A pool with its free list exchanged. -/
def withHead (pool : ZedisSlabPool) (head : Option Nat) : ZedisSlabPool := { pool with freeList := head }

/-- `block->next = link`. -/
def SharedSlab.setLink (s : SharedSlab τ) (k : Fin 4) (block : Nat) (link : Option Nat) : SharedSlab τ :=
  { s with slab := ⟨Function.update s.slab.pools k (withLink (s.slab.pools k) block link)⟩ }

/-- The free list after an exchange. -/
def SharedSlab.setHead (s : SharedSlab τ) (k : Fin 4) (head : Option Nat) : SharedSlab τ :=
  { s with slab := ⟨Function.update s.slab.pools k (withHead (s.slab.pools k) head)⟩ }

variable [DecidableEq τ]

/-- The thread goes on. -/
def SharedSlab.goes (s : SharedSlab τ) (t : τ) (next : ThreadAt) : SharedSlab τ :=
  { s with threads := Function.update s.threads t next }

/-- The loop of `zedis_slab_alloc` with a value of the free list: it ends if there is no block, and
`zedis_slab_alloc` returns `NULL`. -/
def allocLoop (s : SharedSlab τ) (t : τ) (k : Fin 4) (size : Nat) :
    SharedSlab τ × List (SlabRequest × Option Nat) :=
  match s.head k with
  | none => (s.goes t .idle, [(.alloc size, none)])
  | some head => (s.goes t (.allocLoaded k size head), [])

/-- **One access of one thread**: the state it leaves, and the call that takes effect with it, if one
does, with its return value. -/
def slabMove (s : SharedSlab τ) (t : τ) (access : SlabAccess) :
    Option (SharedSlab τ × List (SlabRequest × Option Nat)) :=
  match access, s.threads t with
  | .alloc size, .idle =>
    match poolForSize size with
    | none => some (s, [(.alloc size, none)])
    | some k => some (allocLoop s t k size)
  | .readNext, .allocLoaded k size head => some (s.goes t (.allocNext k size head (s.link (k, head))), [])
  | .exchange spurious, .allocNext k size head next =>
    if spurious = false ∧ s.head k = some head then
      some ((s.setHead k next).goes t (.allocTaken k head),
        [(.alloc size, some (head + slabDataOffset))])
    else some (allocLoop s t k size)
  | .clearNext, .allocTaken k head =>
    some ({ (s.setLink k head none).goes t .idle with held := (k, head) :: s.held }, [])
  | .free none size, .idle => some (s, [(.free none size, none)])
  | .free (some ptr) size, .idle =>
    match poolForSize size with
    | none => some (s, [(.free (some ptr) size, none)])
    | some k =>
      let block := ptr - slabDataOffset
      some ({ s.goes t (.freeLoaded k size block (s.head k)) with held := s.held.erase (k, block) }, [])
  | .writeNext, .freeLoaded k size block head =>
    some ((s.setLink k block head).goes t (.freeLinked k size block head), [])
  | .exchange spurious, .freeLinked k size block head =>
    if spurious = false ∧ s.head k = head then
      some ((s.setHead k (some block)).goes t .idle,
        [(.free (some (block + slabDataOffset)) size, none)])
    else some (s.goes t (.freeLoaded k size block (s.head k)), [])
  | _, _ => none

/-- The state after an access. -/
def sharedSlabStep (s : SharedSlab τ) (input : τ × SlabAccess) : Option (SharedSlab τ) :=
  (slabMove s input.1 input.2).map Prod.fst

/-- The call that takes effect. -/
def takesEffect (s : SharedSlab τ) (input : τ × SlabAccess) (_ : SharedSlab τ) :
    List (SlabRequest × Option Nat) :=
  ((slabMove s input.1 input.2).map Prod.snd).getD []

end Moves

/-- The block whose link the thread is about to read, or has read, before it takes the block. -/
def ThreadAt.wants : ThreadAt → Option Cell
  | .allocLoaded k _ head => some (k, head)
  | .allocNext k _ head _ => some (k, head)
  | _ => none

/-- The block that only this thread has. -/
def ThreadAt.owns : ThreadAt → Option Cell
  | .allocTaken k head => some (k, head)
  | .freeLoaded k _ block _ => some (k, block)
  | .freeLinked k _ block _ => some (k, block)
  | _ => none

/-- What is freed is held. -/
def FreesHeld {τ : Type} (s : SharedSlab τ) (input : τ × SlabAccess) : Prop :=
  match input.2 with
  | .free (some ptr) size => ∀ k ∈ poolForSize size,
      slabDataOffset ≤ ptr ∧ (k, ptr - slabDataOffset) ∈ s.held
  | _ => True

/-- No thread is in the loop of `zedis_slab_alloc` for a pool when another one enters it. -/
def EntersAlone {τ : Type} (s : SharedSlab τ) (input : τ × SlabAccess) : Prop :=
  match input.2 with
  | .alloc size => ∀ k ∈ poolForSize size, ∀ u, ∀ cell ∈ (s.threads u).wants, cell.1 ≠ k
  | _ => True

/-- **The condition on an access.** -/
def OneAllocator {τ : Type} (s : SharedSlab τ) (input : τ × SlabAccess) : Prop :=
  FreesHeld s input ∧ EntersAlone s input

instance {τ : Type} (s : SharedSlab τ) (input : τ × SlabAccess) : Decidable (FreesHeld s input) :=
  match input with
  | (_, .free (some ptr) size) => inferInstanceAs (Decidable (∀ k ∈ poolForSize size,
      slabDataOffset ≤ ptr ∧ (k, ptr - slabDataOffset) ∈ s.held))
  | (_, .free none _) | (_, .alloc _) | (_, .readNext) | (_, .exchange _) | (_, .clearNext)
  | (_, .writeNext) => isTrue trivial

instance {τ : Type} [Fintype τ] (s : SharedSlab τ) (input : τ × SlabAccess) :
    Decidable (EntersAlone s input) :=
  match input with
  | (_, .alloc size) => inferInstanceAs (Decidable (∀ k ∈ poolForSize size, ∀ u,
      ∀ cell ∈ (s.threads u).wants, cell.1 ≠ k))
  | (_, .free _ _) | (_, .readNext) | (_, .exchange _) | (_, .clearNext) | (_, .writeNext) => isTrue trivial

instance {τ : Type} [Fintype τ] (s : SharedSlab τ) (input : τ × SlabAccess) :
    Decidable (OneAllocator s input) := inferInstanceAs (Decidable (_ ∧ _))

/-- The calls one after the other. -/
inductive Sequential : ZedisSlab → SlabRequest → Option Nat → ZedisSlab → Prop
  | alloc (slab : ZedisSlab) (size : Nat) :
      Sequential slab (.alloc size) (zedisSlabAlloc slab size).1 (zedisSlabAlloc slab size).2
  | free (slab : ZedisSlab) (ptr : Option Nat) (size : Nat) :
      Sequential slab (.free ptr size) none (zedisSlabFree slab ptr size)

/-! ### Four stacks -/

/-- **The free lists as stacks.** -/
inductive StacksAllow (free : Fin 4 → List Nat) : SlabRequest → Option Nat → (Fin 4 → List Nat) → Prop
  | pop (k : Fin 4) (size block : Nat) (rest : List Nat) :
      poolForSize size = some k → free k = block :: rest →
      StacksAllow free (.alloc size) (some (block + slabDataOffset)) (Function.update free k rest)
  | null (size : Nat) : (∀ k ∈ poolForSize size, free k = []) → StacksAllow free (.alloc size) none free
  | push (k : Fin 4) (size block : Nat) : poolForSize size = some k → block ∉ free k →
      StacksAllow free (.free (some (block + slabDataOffset)) size) none
        (Function.update free k (block :: free k))
  | ignore (ptr : Option Nat) (size : Nat) : ptr = none ∨ poolForSize size = none →
      StacksAllow free (.free ptr size) none free

/-- The links of a slab are those of the stacks. -/
def StacksOf (slab : ZedisSlab) (free : Fin 4 → List Nat) : Prop :=
  ∀ k, Listed (slab.pools k).next (slab.pools k).freeList (free k) ∧ (free k).Nodup

/-- One pool changes. -/
theorem StacksOf.update {slab : ZedisSlab} {free : Fin 4 → List Nat} (lists : StacksOf slab free)
    (k : Fin 4) {pool : ZedisSlabPool} {blocks : List Nat}
    (listed : Listed pool.next pool.freeList blocks) (nodup : blocks.Nodup) :
    StacksOf ⟨Function.update slab.pools k pool⟩ (Function.update free k blocks) := by
  intro j
  by_cases same : j = k
  · subst same
    simp only [Function.update_self]
    exact ⟨listed, nodup⟩
  · simp only [Function.update_of_ne same]
    exact lists j

/-- **The calls one after the other are those of the stacks.** -/
theorem StacksAllow.sequential {free free' : Fin 4 → List Nat} {request : SlabRequest}
    {answer : Option Nat} (allows : StacksAllow free request answer free') {slab : ZedisSlab}
    (lists : StacksOf slab free) :
    ∃ slab', Sequential slab request answer slab' ∧ StacksOf slab' free' := by
  cases allows with
  | pop k size block rest chosen isFree =>
    obtain ⟨listed, nodup⟩ := lists k
    rw [isFree] at listed nodup
    obtain ⟨outside, nodup⟩ := List.nodup_cons.mp nodup
    have called := Sequential.alloc slab size
    rw [zedisSlabAlloc_some slab chosen listed.1] at called
    exact ⟨_, called, lists.update k (listed.2.update outside none) nodup⟩
  | null size empty =>
    have called := Sequential.alloc slab size
    have unchanged : zedisSlabAlloc slab size = (none, slab) := by
      cases chosen : poolForSize size with
      | none => simp only [zedisSlabAlloc, chosen]
      | some k =>
        have listed := (lists k).1
        rw [empty k chosen] at listed
        exact zedisSlabAlloc_none slab chosen listed
    rw [unchanged] at called
    exact ⟨slab, called, lists⟩
  | push k size block chosen outside =>
    obtain ⟨listed, nodup⟩ := lists k
    refine ⟨_, .free slab (some (block + slabDataOffset)) size, ?_⟩
    simp only [zedisSlabFree, chosen]
    refine lists.update k ⟨rfl, ?_⟩ (List.nodup_cons.mpr ⟨outside, nodup⟩)
    simp only [freeBlock, Nat.add_sub_cancel, Function.update_self]
    exact listed.update outside _
  | ignore ptr size ignored =>
    refine ⟨slab, ?_, lists⟩
    have called := Sequential.free slab ptr size
    have unchanged : zedisSlabFree slab ptr size = slab := by
      rcases ignored with rfl | none
      · rfl
      · cases ptr with
        | none => rfl
        | some ptr => simp only [zedisSlabFree, none]
    rw [unchanged] at called
    exact called

theorem sequential_of_stacks {free free' : Fin 4 → List Nat} {calls : List (SlabRequest × Option Nat)}
    (behaves : Behaves StacksAllow free calls free') {slab : ZedisSlab} (lists : StacksOf slab free) :
    ∃ slab', Behaves Sequential slab calls slab' ∧ StacksOf slab' free' := by
  induction behaves generalizing slab with
  | nil free => exact ⟨slab, .nil slab, lists⟩
  | cons allowed _ ih =>
    obtain ⟨middle, called, lists⟩ := allowed.sequential lists
    obtain ⟨last, later, lists⟩ := ih lists
    exact ⟨last, .cons called later, lists⟩

/-! ### The place of every block -/

/-- Where a block is: on the free list, held by a caller, with a thread that is inside a call, or not a
block of the slab at all. -/
inductive Place (τ : Type)
  | free
  | held
  | thread (t : τ)
  | outside

/-- What a thread may rely on between two accesses. -/
def ThreadOk {τ : Type} (link : Cell → Option Nat) (place : Cell → Place τ) : ThreadAt → Prop
  | .idle => True
  | .allocLoaded k size head => poolForSize size = some k ∧ place (k, head) = .free
  | .allocNext k size head next =>
    poolForSize size = some k ∧ place (k, head) = .free ∧ link (k, head) = next
  | .allocTaken _ _ => True
  | .freeLoaded k size _ _ => poolForSize size = some k
  | .freeLinked k size block head => poolForSize size = some k ∧ link (k, block) = head

/-- What the other threads do is not seen, if they leave its blocks alone. -/
theorem ThreadOk.stays {τ : Type} {link link' : Cell → Option Nat} {place place' : Cell → Place τ}
    {thread : ThreadAt} (ok : ThreadOk link place thread)
    (wanted : ∀ cell, thread.wants = some cell → place' cell = place cell ∧ link' cell = link cell)
    (owned : ∀ cell, thread.owns = some cell → link' cell = link cell) : ThreadOk link' place' thread := by
  cases thread with
  | idle => trivial
  | allocLoaded k size head =>
    obtain ⟨chosen, isFree⟩ := ok
    exact ⟨chosen, (wanted _ rfl).1.trans isFree⟩
  | allocNext k size head next =>
    obtain ⟨chosen, isFree, isNext⟩ := ok
    exact ⟨chosen, (wanted _ rfl).1.trans isFree, (wanted _ rfl).2.trans isNext⟩
  | allocTaken k head => trivial
  | freeLoaded k size block head => exact ok
  | freeLinked k size block head => exact ⟨ok.1, (owned _ rfl).trans ok.2⟩

section Invariant

variable {τ : Type}

/-- **Every block is in one place**, whatever the threads are doing. -/
structure SharedInv (s : SharedSlab τ) (place : Cell → Place τ) (free : Fin 4 → List Nat) : Prop where
  lists : StacksOf s.slab free
  held_nodup : s.held.Nodup
  free_iff : ∀ k block, block ∈ free k ↔ place (k, block) = .free
  held_iff : ∀ cell, cell ∈ s.held ↔ place cell = .held
  owned_iff : ∀ t cell, (s.threads t).owns = some cell ↔ place cell = .thread t
  blocks : ∀ k block, place (k, block) ≠ .outside ↔
    ∃ i < (s.slab.pools k).blockCount, block = i * slabClass k
  ok : ∀ t, ThreadOk s.link place (s.threads t)
  alone : ∀ t u k block other, (s.threads t).wants = some (k, block) →
    (s.threads u).wants = some (k, other) → t = u

/-- No thread is about to read, or has read to use it, a link that another thread is about to write. -/
def NoRace (s : SharedSlab τ) : Prop :=
  ∀ t u cell, (s.threads t).wants = some cell → (s.threads u).owns ≠ some cell

variable {s : SharedSlab τ} {place : Cell → Place τ} {free : Fin 4 → List Nat} {t : τ} {k : Fin 4}
  {size block head : Nat}

/-- A wanted block is on the free list. -/
theorem SharedInv.wanted_free (inv : SharedInv s place free) {cell : Cell}
    (wants : (s.threads t).wants = some cell) : place cell = .free := by
  have ok := inv.ok t
  cases isAt : s.threads t with
  | allocLoaded k size head =>
    rw [isAt] at ok wants
    cases wants
    exact ok.2
  | allocNext k size head next =>
    rw [isAt] at ok wants
    cases wants
    exact ok.2.1
  | idle | allocTaken _ _ | freeLoaded _ _ _ _ | freeLinked _ _ _ _ =>
    rw [isAt] at wants
    cases wants

theorem SharedInv.noRace (inv : SharedInv s place free) : NoRace s := by
  intro t u cell wants owns
  have isFree := inv.wanted_free wants
  rw [(inv.owned_iff u cell).mp owns] at isFree
  cases isFree

/-- The first block of the stack is `free_list`. -/
theorem SharedInv.head_some (inv : SharedInv s place free) (isHead : s.head k = some head) :
    ∃ rest, free k = head :: rest ∧ Listed (s.slab.pools k).next (s.link (k, head)) rest := by
  have listed := (inv.lists k).1
  have isHead : (s.slab.pools k).freeList = some head := isHead
  rw [isHead] at listed
  cases isFree : free k with
  | nil =>
    rw [isFree] at listed
    cases listed
  | cons first rest =>
    rw [isFree] at listed
    obtain ⟨same, listed⟩ := listed
    cases same
    exact ⟨rest, rfl, listed⟩

theorem SharedInv.head_none (inv : SharedInv s place free) (isHead : s.head k = none) : free k = [] := by
  have listed := (inv.lists k).1
  have isHead : (s.slab.pools k).freeList = none := isHead
  rw [isHead] at listed
  cases isFree : free k with
  | nil => rfl
  | cons first rest =>
    rw [isFree] at listed
    cases listed.1

/-- No thread wants a block that is not free. -/
theorem SharedInv.unwanted (inv : SharedInv s place free) {cell : Cell} (taken : place cell ≠ .free)
    (u : τ) : (s.threads u).wants ≠ some cell := fun wants => taken (inv.wanted_free wants)

/-- The other threads do not want a block of the pool. -/
theorem SharedInv.others (inv : SharedInv s place free) (wants : (s.threads t).wants = some (k, head))
    (u : τ) (other : Nat) (differs : u ≠ t) : (s.threads u).wants ≠ some (k, other) :=
  fun also => differs (inv.alone u t k other head also wants)

/-- The free blocks without the first one of a stack. -/
theorem SharedInv.free_iff_pop (inv : SharedInv s place free) {rest : List Nat} {now : Place τ}
    (stack : free k = head :: rest) (taken : now ≠ .free) (j : Fin 4) (b : Nat) :
    b ∈ Function.update free k rest j ↔ Function.update place (k, head) now (j, b) = .free := by
  have nodup := (inv.lists k).2
  rw [stack] at nodup
  by_cases samePool : j = k
  · subst samePool
    rw [Function.update_self]
    by_cases same : b = head
    · subst same
      rw [Function.update_self]
      exact iff_of_false (List.nodup_cons.mp nodup).1 taken
    · have differs : (j, b) ≠ (j, head) := fun equal => same (Prod.mk.inj equal).2
      rw [Function.update_of_ne differs, ← inv.free_iff, stack, List.mem_cons, or_iff_right same]
  · have differs : (j, b) ≠ (k, head) := fun equal => samePool (Prod.mk.inj equal).1
    rw [Function.update_of_ne samePool, Function.update_of_ne differs]
    exact inv.free_iff j b

/-- The free blocks with one more. -/
theorem SharedInv.free_iff_push (inv : SharedInv s place free) (j : Fin 4) (b : Nat) :
    b ∈ Function.update free k (block :: free k) j ↔
      Function.update place (k, block) .free (j, b) = .free := by
  by_cases samePool : j = k
  · subst samePool
    rw [Function.update_self, List.mem_cons]
    by_cases same : b = block
    · subst same
      rw [Function.update_self]
      exact iff_of_true (Or.inl rfl) rfl
    · have differs : (j, b) ≠ (j, block) := fun equal => same (Prod.mk.inj equal).2
      rw [Function.update_of_ne differs, ← inv.free_iff, or_iff_right same]
  · have differs : (j, b) ≠ (k, block) := fun equal => samePool (Prod.mk.inj equal).1
    rw [Function.update_of_ne samePool, Function.update_of_ne differs]
    exact inv.free_iff j b

/-- A block that moves between other places does not matter to `which`. -/
theorem update_iff {cell c : Cell} {now which : Place τ} (before : place cell ≠ which)
    (after : now ≠ which) : Function.update place cell now c = which ↔ place c = which := by
  by_cases same : c = cell
  · rw [same, Function.update_self]
    exact iff_of_false after before
  · rw [Function.update_of_ne same]

/-! ### One access -/

theorem setLink_count (link : Option Nat) (j : Fin 4) :
    ((s.setLink k block link).slab.pools j).blockCount = (s.slab.pools j).blockCount := by
  by_cases same : j = k
  · subst same
    simp [SharedSlab.setLink, withLink]
  · simp [SharedSlab.setLink, Function.update_of_ne same]

theorem setHead_count (first : Option Nat) (j : Fin 4) :
    ((s.setHead k first).slab.pools j).blockCount = (s.slab.pools j).blockCount := by
  by_cases same : j = k
  · subst same
    simp [SharedSlab.setHead, withHead]
  · simp [SharedSlab.setHead, Function.update_of_ne same]

theorem setLink_link (link : Option Nat) : (s.setLink k block link).link (k, block) = link := by
  simp [SharedSlab.setLink, SharedSlab.link, withLink]

/-- Other links stay. -/
theorem setLink_link_of_ne (link : Option Nat) {cell : Cell} (other : cell ≠ (k, block)) :
    (s.setLink k block link).link cell = s.link cell := by
  obtain ⟨j, b⟩ := cell
  by_cases samePool : j = k
  · subst samePool
    have differs : b ≠ block := fun same => other (by rw [same])
    simp [SharedSlab.setLink, SharedSlab.link, withLink, Function.update_of_ne differs]
  · simp [SharedSlab.setLink, SharedSlab.link, Function.update_of_ne samePool]

theorem setHead_link (first : Option Nat) (cell : Cell) : (s.setHead k first).link cell = s.link cell := by
  obtain ⟨j, b⟩ := cell
  by_cases same : j = k
  · subst same
    simp [SharedSlab.setHead, SharedSlab.link, withHead]
  · simp [SharedSlab.setHead, SharedSlab.link, Function.update_of_ne same]

/-- A write to the link of a block that is not free. -/
theorem StacksOf.setLink (lists : StacksOf s.slab free) (outside : block ∉ free k) (link : Option Nat) :
    StacksOf (s.setLink k block link).slab free := by
  have listed : Listed (withLink (s.slab.pools k) block link).next
      (withLink (s.slab.pools k) block link).freeList (free k) := (lists k).1.update outside link
  have changed := lists.update k listed (lists k).2
  rw [Function.update_eq_self] at changed
  exact changed

variable [DecidableEq τ]

theorem goes_self {next : ThreadAt} : (s.goes t next).threads t = next := Function.update_self _ _ _

theorem goes_of_ne {u : τ} {next : ThreadAt} (other : u ≠ t) :
    (s.goes t next).threads u = s.threads u := Function.update_of_ne other _ _

/-- The thread goes on without touching a block. -/
theorem SharedInv.goes (inv : SharedInv s place free) {next : ThreadAt}
    (owns : next.owns = (s.threads t).owns) (ok : ThreadOk s.link place next)
    (alone : ∀ k block, next.wants = some (k, block) → ∀ u other, u ≠ t →
      (s.threads u).wants ≠ some (k, other)) : SharedInv (s.goes t next) place free := by
  refine ⟨inv.lists, inv.held_nodup, inv.free_iff, inv.held_iff, fun u cell => ?_, inv.blocks,
    fun u => ?_, fun u v k block other first second => ?_⟩
  · by_cases same : u = t
    · subst same
      rw [goes_self, owns]
      exact inv.owned_iff u cell
    · rw [goes_of_ne same]
      exact inv.owned_iff u cell
  · by_cases same : u = t
    · subst same
      rw [goes_self]
      exact ok
    · rw [goes_of_ne same]
      exact inv.ok u
  · by_cases isFirst : u = t
    · by_cases isSecond : v = t
      · exact isFirst.trans isSecond.symm
      · rw [isFirst, goes_self] at first
        rw [goes_of_ne isSecond] at second
        exact absurd second (alone k block first v other isSecond)
    · rw [goes_of_ne isFirst] at first
      by_cases isSecond : v = t
      · rw [isSecond, goes_self] at second
        exact absurd first (alone k other second u block isFirst)
      · rw [goes_of_ne isSecond] at second
        exact inv.alone u v k block other first second

/-- **A block changes its place**, from or to the thread, which wants no other block afterwards. -/
theorem SharedInv.moves (inv : SharedInv s place free) {cell : Cell} {now : Place τ} {next : ThreadAt}
    {slab : ZedisSlab} {held : List Cell} {free' : Fin 4 → List Nat}
    (counts : ∀ k, (slab.pools k).blockCount = (s.slab.pools k).blockCount)
    (links : ∀ c, c ≠ cell → (slab.pools c.1).next c.2 = s.link c)
    (lists : StacksOf slab free') (nodup : held.Nodup)
    (free_iff : ∀ k block, block ∈ free' k ↔ Function.update place cell now (k, block) = .free)
    (held_iff : ∀ c, c ∈ held ↔ Function.update place cell now c = .held)
    (inside : place cell ≠ .outside ∧ now ≠ .outside)
    (mine : ∀ u, u ≠ t → place cell ≠ .thread u ∧ now ≠ .thread u ∧ (s.threads u).wants ≠ some cell)
    (before : (s.threads t).owns = none ∨ (s.threads t).owns = some cell)
    (after : next.owns = none ∧ now ≠ .thread t ∨ next.owns = some cell ∧ now = .thread t)
    (ok : ThreadOk (fun c => (slab.pools c.1).next c.2) (Function.update place cell now) next)
    (wants : next.wants = none) :
    SharedInv (SharedSlab.goes ⟨slab, s.threads, held⟩ t next) (Function.update place cell now) free' := by
  refine ⟨lists, nodup, free_iff, held_iff, fun u c => ?_, fun k block => ?_, fun u => ?_,
    fun u v k block other first second => ?_⟩
  · by_cases sameCell : c = cell
    · subst sameCell
      rw [Function.update_self]
      by_cases same : u = t
      · subst same
        rw [goes_self]
        rcases after with ⟨owns, elsewhere⟩ | ⟨owns, here⟩
        · rw [owns]
          exact iff_of_false (fun absurd => by cases absurd) elsewhere
        · exact iff_of_true owns here
      · rw [goes_of_ne same, inv.owned_iff u c]
        exact iff_of_false (mine u same).1 (mine u same).2.1
    · rw [Function.update_of_ne sameCell]
      by_cases same : u = t
      · subst same
        rw [goes_self, ← inv.owned_iff u c]
        refine iff_of_false (fun owns => ?_) (fun owns => ?_)
        · rcases after with ⟨isNone, -⟩ | ⟨isCell, -⟩
          · cases isNone.symm.trans owns
          · exact sameCell (Option.some.inj (owns.symm.trans isCell))
        · rcases before with isNone | isCell
          · cases isNone.symm.trans owns
          · exact sameCell (Option.some.inj (owns.symm.trans isCell))
      · rw [goes_of_ne same]
        exact inv.owned_iff u c
  · have known := inv.blocks k block
    rw [← counts k] at known
    refine Iff.trans ?_ known
    by_cases sameCell : (k, block) = cell
    · rw [sameCell, Function.update_self]
      exact iff_of_true inside.2 inside.1
    · rw [Function.update_of_ne sameCell]
  · by_cases same : u = t
    · subst same
      rw [goes_self]
      exact ok
    · rw [goes_of_ne same]
      refine (inv.ok u).stays (fun c wanted => ?_) (fun c owned => ?_)
      · have differs : c ≠ cell := fun isCell => (mine u same).2.2 (isCell ▸ wanted)
        exact ⟨Function.update_of_ne differs _ _, links c differs⟩
      · refine links c fun isCell => (mine u same).1 ?_
        rw [← isCell]
        exact (inv.owned_iff u c).mp owned
  · by_cases isFirst : u = t
    · rw [isFirst, goes_self, wants] at first
      cases first
    · by_cases isSecond : v = t
      · rw [isSecond, goes_self, wants] at second
        cases second
      · rw [goes_of_ne isFirst] at first
        rw [goes_of_ne isSecond] at second
        exact inv.alone u v k block other first second

/-- **The exchange of `zedis_slab_alloc`**: the first block goes to the thread. -/
theorem SharedInv.pop (inv : SharedInv s place free) {next : Option Nat}
    (isAt : s.threads t = .allocNext k size head next) (first : s.head k = some head) :
    ∃ free', StacksAllow free (.alloc size) (some (head + slabDataOffset)) free' ∧
      SharedInv ((s.setHead k next).goes t (.allocTaken k head))
        (Function.update place (k, head) (.thread t)) free' := by
  have ok := inv.ok t
  rw [isAt] at ok
  obtain ⟨chosen, isFree, isNext⟩ := ok
  obtain ⟨rest, stack, listed⟩ := inv.head_some first
  rw [isNext] at listed
  have nodup := (inv.lists k).2
  rw [stack] at nodup
  refine ⟨_, .pop k size head rest chosen stack, ?_⟩
  refine inv.moves (setHead_count next) (fun c _ => setHead_link next c)
    (inv.lists.update k listed nodup.of_cons) inv.held_nodup (inv.free_iff_pop stack (by simp))
    (fun c => ?_) ⟨by simp [isFree], by simp⟩ (fun u other => ⟨by simp [isFree], ?_, ?_⟩)
    (Or.inl (by rw [isAt]; rfl)) (Or.inr ⟨rfl, rfl⟩) trivial rfl
  · rw [inv.held_iff c, update_iff (by simp [isFree]) (by simp)]
  · intro same
    exact other (Place.thread.inj same).symm
  · intro wants
    -- no other thread is in the loop for this pool
    refine other (inv.alone u t k head head wants ?_)
    rw [isAt]
    rfl

/-- **The return of `zedis_slab_alloc`**: the block goes to the caller. -/
theorem SharedInv.hand_out (inv : SharedInv s place free) (isAt : s.threads t = .allocTaken k head) :
    SharedInv { (s.setLink k head none).goes t .idle with held := (k, head) :: s.held }
      (Function.update place (k, head) .held) free := by
  have owns : (s.threads t).owns = some (k, head) := by rw [isAt]; rfl
  have owned := (inv.owned_iff t (k, head)).mp owns
  have outside : head ∉ free k := by
    rw [inv.free_iff, owned]
    simp
  refine inv.moves (setLink_count none) (fun c other => setLink_link_of_ne none other)
    (inv.lists.setLink outside none) (List.nodup_cons.mpr ⟨?_, inv.held_nodup⟩) (fun j b => ?_)
    (fun c => ?_) ⟨by simp [owned], by simp⟩ (fun u other => ⟨?_, by simp, ?_⟩) (Or.inr owns)
    (Or.inl ⟨rfl, by simp⟩) trivial rfl
  · rw [inv.held_iff, owned]
    simp
  · rw [inv.free_iff, update_iff (by simp [owned]) (by simp)]
  · rw [List.mem_cons]
    by_cases same : c = (k, head)
    · rw [same, Function.update_self]
      exact iff_of_true (Or.inl rfl) rfl
    · rw [Function.update_of_ne same, ← inv.held_iff c, or_iff_right same]
  · rw [owned]
    intro same
    exact other (Place.thread.inj same).symm
  · exact inv.unwanted (by simp [owned]) u

/-- **The call of `zedis_slab_free`**: the block goes from the caller to the thread. -/
theorem SharedInv.give_back (inv : SharedInv s place free) (isAt : s.threads t = .idle)
    (chosen : poolForSize size = some k) (member : (k, block) ∈ s.held) (first : Option Nat) :
    SharedInv { s.goes t (.freeLoaded k size block first) with held := s.held.erase (k, block) }
      (Function.update place (k, block) (.thread t)) free := by
  have isHeld := (inv.held_iff _).mp member
  refine inv.moves (fun _ => rfl) (fun _ _ => rfl) inv.lists (inv.held_nodup.erase _) (fun j b => ?_)
    (fun c => ?_) ⟨by simp [isHeld], by simp⟩ (fun u other => ⟨by simp [isHeld], ?_, ?_⟩)
    (Or.inl (by rw [isAt]; rfl)) (Or.inr ⟨rfl, rfl⟩) chosen rfl
  · rw [inv.free_iff, update_iff (by simp [isHeld]) (by simp)]
  · rw [inv.held_nodup.mem_erase_iff, inv.held_iff c]
    by_cases same : c = (k, block)
    · rw [same, Function.update_self]
      simp
    · rw [Function.update_of_ne same, and_iff_right same]
  · intro same
    exact other (Place.thread.inj same).symm
  · exact inv.unwanted (by simp [isHeld]) u

/-- **The write of `block->next`** in `zedis_slab_free`. -/
theorem SharedInv.write_link (inv : SharedInv s place free) {first : Option Nat}
    (isAt : s.threads t = .freeLoaded k size block first) :
    SharedInv ((s.setLink k block first).goes t (.freeLinked k size block first)) place free := by
  have owns : (s.threads t).owns = some (k, block) := by rw [isAt]; rfl
  have owned := (inv.owned_iff t (k, block)).mp owns
  have ok := inv.ok t
  rw [isAt] at ok
  have outside : block ∉ free k := by
    rw [inv.free_iff, owned]
    simp
  have stays : Function.update place (k, block) (.thread t) = place := by
    rw [← owned, Function.update_eq_self]
  have moved : SharedInv ((s.setLink k block first).goes t (.freeLinked k size block first))
      (Function.update place (k, block) (.thread t)) free := by
    refine inv.moves (setLink_count first) (fun c other => setLink_link_of_ne first other)
      (inv.lists.setLink outside first) inv.held_nodup (fun j b => ?_) (fun c => ?_)
      ⟨by simp [owned], by simp⟩ (fun u other => ⟨?_, ?_, ?_⟩) (Or.inr owns) (Or.inr ⟨rfl, rfl⟩)
      ⟨ok, setLink_link first⟩ rfl
    · rw [stays]
      exact inv.free_iff j b
    · rw [stays]
      exact inv.held_iff c
    · rw [owned]
      intro same
      exact other (Place.thread.inj same).symm
    · intro same
      exact other (Place.thread.inj same).symm
    · exact inv.unwanted (by simp [owned]) u
  rwa [stays] at moved

/-- **The exchange of `zedis_slab_free`**: the block goes from the thread to the top of the stack. -/
theorem SharedInv.push (inv : SharedInv s place free) {first : Option Nat}
    (isAt : s.threads t = .freeLinked k size block first) (same : s.head k = first) :
    ∃ free', StacksAllow free (.free (some (block + slabDataOffset)) size) none free' ∧
      SharedInv ((s.setHead k (some block)).goes t .idle) (Function.update place (k, block) .free) free' := by
  have owns : (s.threads t).owns = some (k, block) := by rw [isAt]; rfl
  have owned := (inv.owned_iff t (k, block)).mp owns
  have ok := inv.ok t
  rw [isAt] at ok
  obtain ⟨chosen, link⟩ := ok
  have outside : block ∉ free k := by
    rw [inv.free_iff, owned]
    simp
  have listed : Listed (withHead (s.slab.pools k) (some block)).next
      (withHead (s.slab.pools k) (some block)).freeList (block :: free k) := by
    refine ⟨rfl, ?_⟩
    have below := (inv.lists k).1
    rw [show (s.slab.pools k).freeList = s.link (k, block) from same.trans link.symm] at below
    exact below
  refine ⟨_, .push k size block chosen outside, ?_⟩
  refine inv.moves (setHead_count (some block)) (fun c _ => setHead_link (some block) c)
    (inv.lists.update k listed (List.nodup_cons.mpr ⟨outside, (inv.lists k).2⟩)) inv.held_nodup
    inv.free_iff_push (fun c => ?_) ⟨by simp [owned], by simp⟩ (fun u other => ⟨?_, by simp, ?_⟩)
    (Or.inr owns) (Or.inl ⟨rfl, by simp⟩) trivial rfl
  · rw [inv.held_iff c, update_iff (by simp [owned]) (by simp)]
  · rw [owned]
    intro same
    exact other (Place.thread.inj same).symm
  · exact inv.unwanted (by simp [owned]) u

/-- The loop of `zedis_slab_alloc` begins, or begins again. -/
theorem SharedInv.allocLoop (inv : SharedInv s place free) (owns : (s.threads t).owns = none)
    (chosen : poolForSize size = some k)
    (alone : ∀ u other, u ≠ t → (s.threads u).wants ≠ some (k, other)) :
    Behaves StacksAllow free (allocLoop s t k size).2 free ∧
      SharedInv (allocLoop s t k size).1 place free := by
  cases first : s.head k with
  | none =>
    simp only [Slab.allocLoop, first]
    refine ⟨.single (.null size fun j isChosen => ?_), inv.goes (by rw [owns]; rfl) trivial nofun⟩
    cases chosen.symm.trans isChosen
    exact inv.head_none first
  | some head =>
    simp only [Slab.allocLoop, first]
    obtain ⟨rest, stack, -⟩ := inv.head_some first
    have isFree : place (k, head) = .free := by
      rw [← inv.free_iff, stack]
      exact List.mem_cons_self
    refine ⟨.nil free, inv.goes (by rw [owns]; rfl) ⟨chosen, isFree⟩ ?_⟩
    rintro j block isWanted u other differs
    cases isWanted
    exact alone u other differs

/-- **Every access is one of the stacks, or is not seen in them.** -/
theorem SharedInv.move (inv : SharedInv s place free) {access : SlabAccess}
    (met : OneAllocator s (t, access)) {next : SharedSlab τ} {calls : List (SlabRequest × Option Nat)}
    (moved : slabMove s t access = some (next, calls)) :
    ∃ place' free', Behaves StacksAllow free calls free' ∧ SharedInv next place' free' := by
  unfold slabMove at moved
  split at moved
  · -- `zedis_slab_alloc` is called
    rename_i size isAt
    split at moved
    · rename_i none
      cases moved
      exact ⟨place, free, .single (.null size fun k chosen => by cases none.symm.trans chosen), inv⟩
    · rename_i k chosen
      have begun := inv.allocLoop (by rw [isAt]; rfl) chosen fun u other _ wants =>
        met.2 k chosen u (k, other) wants rfl
      rw [Option.some.inj moved] at begun
      exact ⟨place, free, begun⟩
  · rename_i k size head isAt
    cases moved
    have ok := inv.ok t
    rw [isAt] at ok
    refine ⟨place, free, .nil free, inv.goes (by rw [isAt]; rfl) ⟨ok.1, ok.2, rfl⟩ ?_⟩
    rintro j block isWanted u other differs
    cases isWanted
    exact inv.others (by rw [isAt]; rfl) u other differs
  · rename_i spurious k size head link isAt
    split at moved
    · rename_i succeeds
      cases moved
      obtain ⟨free', allowed, inv⟩ := inv.pop isAt succeeds.2
      exact ⟨_, free', .single allowed, inv⟩
    · have ok := inv.ok t
      rw [isAt] at ok
      have again := inv.allocLoop (by rw [isAt]; rfl) ok.1 (inv.others (by rw [isAt]; rfl))
      rw [Option.some.inj moved] at again
      exact ⟨place, free, again⟩
  · rename_i k head isAt
    cases moved
    exact ⟨_, free, .nil free, inv.hand_out isAt⟩
  · rename_i size isAt
    cases moved
    exact ⟨place, free, .single (.ignore none size (Or.inl rfl)), inv⟩
  · -- `zedis_slab_free` is called
    rename_i ptr size isAt
    split at moved
    · rename_i none
      cases moved
      exact ⟨place, free, .single (.ignore (some ptr) size (Or.inr none)), inv⟩
    · rename_i k chosen
      cases moved
      exact ⟨_, free, .nil free, inv.give_back isAt chosen (met.1 k chosen).2 _⟩
  · rename_i k size block first isAt
    cases moved
    exact ⟨place, free, .nil free, inv.write_link isAt⟩
  · rename_i spurious k size block first isAt
    split at moved
    · rename_i succeeds
      cases moved
      obtain ⟨free', allowed, inv⟩ := inv.push isAt succeeds.2
      exact ⟨_, free', .single allowed, inv⟩
    · cases moved
      have ok := inv.ok t
      rw [isAt] at ok
      exact ⟨place, free, .nil free, inv.goes (by rw [isAt]; rfl) ok.1 nofun⟩
  · cases moved

end Invariant

/-! ### Whole runs -/

section Runs

variable {τ : Type}

/-- The threads before their first calls. -/
def sharedSlab (τ : Type) (slab : ZedisSlab) : SharedSlab τ := ⟨slab, fun _ => .idle, []⟩

/-- Nothing is held, and all blocks are free. -/
theorem sharedSlab_inv {arena arena' : ZedisArena} {count64 count256 count512 count4096 : Nat}
    {slab : ZedisSlab}
    (made : zedisSlabInit arena count64 count256 count512 count4096 = some (slab, arena')) :
    ∃ place free, SharedInv (sharedSlab τ slab) place free := by
  classical
  have pools := (zedisSlabInit_inv made).pools
  choose free pool using pools
  have taken : ∀ k block, ¬ Taken [] k block := by simp [Taken]
  refine ⟨fun cell => if cell.2 ∈ free cell.1 then .free else .outside, free,
    fun k => ⟨(pool k).listed, (pool k).nodup⟩, List.nodup_nil, fun k block => ?_, fun cell => ?_,
    fun t cell => ?_, fun k block => ?_, fun _ => trivial, fun t u k block other wants => by cases wants⟩
  · by_cases isFree : block ∈ free k <;> simp [isFree]
  · by_cases isFree : cell.2 ∈ free cell.1 <;> simp [isFree, sharedSlab]
  · by_cases isFree : cell.2 ∈ free cell.1 <;> simp [isFree, sharedSlab, ThreadAt.owns]
  · refine Iff.trans ?_ ((pool k).blocks block)
    by_cases isFree : block ∈ free k <;> simp [isFree, taken]

variable [DecidableEq τ]

/-- Every access is matched by the stacks. -/
theorem sharedSlabStep_matched (s : SharedSlab τ) (free : Fin 4 → List Nat) (input : τ × SlabAccess)
    (next : SharedSlab τ) (related : ∃ place, SharedInv s place free) (met : OneAllocator s input)
    (taken : sharedSlabStep s input = some next) :
    ∃ free', Behaves StacksAllow free (takesEffect s input next) free' ∧
      ∃ place, SharedInv next place free' := by
  obtain ⟨place, inv⟩ := related
  obtain ⟨⟨after, calls⟩, moved, rfl⟩ := Option.map_eq_some_iff.mp taken
  obtain ⟨place', free', behaves, inv'⟩ := inv.move met moved
  refine ⟨free', ?_, place', inv'⟩
  simp only [takesEffect, moved, Option.map_some, Option.getD_some]
  exact behaves

/-- **Linearizability of the slab.** While threads are interleaved in any way, with one at most in the
loop of `zedis_slab_alloc` for a pool, the calls return what they return one after the other, in the
order in which they take effect, and the free lists are the same as then; every block of the slab is on
the free list, held by a caller, or with one thread inside a call; and no link is read that another
thread is about to write. -/
theorem slab_linearizable {arena arena' : ZedisArena} {count64 count256 count512 count4096 : Nat}
    {slab : ZedisSlab}
    (made : zedisSlabInit arena count64 count256 count512 count4096 = some (slab, arena'))
    {accesses : List (τ × SlabAccess)} {last : SharedSlab τ}
    (run : Run sharedSlabStep OneAllocator (sharedSlab τ slab) accesses last) :
    ∃ (sequential : ZedisSlab) (place : Cell → Place τ) (free : Fin 4 → List Nat),
      Behaves Sequential slab (observed sharedSlabStep takesEffect (sharedSlab τ slab) accesses)
        sequential ∧
      StacksOf sequential free ∧ SharedInv last place free ∧ NoRace last := by
  obtain ⟨place, free, inv⟩ := @sharedSlab_inv τ _ _ _ _ _ _ _ made
  obtain ⟨free', behaves, place', inv'⟩ := run.refines
    (fun s free => ∃ place, SharedInv s place free) (by exact sharedSlabStep_matched) ⟨place, inv⟩
  obtain ⟨sequential, called, lists⟩ := sequential_of_stacks behaves inv.lists
  exact ⟨sequential, place', free', called, lists, inv', inv'.noRace⟩

end Runs

/-- Two threads, one of which frees a block while the other one is about to take the next. -/
def sampleSchedule : List (Bool × SlabAccess) :=
  [(true, .alloc 100), (true, .readNext), (true, .exchange false), (true, .clearNext),
    (true, .alloc 100), (true, .readNext), (false, .free (some 264) 100), (false, .writeNext),
    (false, .exchange false), (true, .exchange false), (true, .readNext), (true, .exchange true),
    (true, .readNext), (true, .exchange false), (true, .clearNext)]

/-- The second allocation fails once, and then gets the block that was given back. -/
theorem slab_linearizable_sample : ∃ slab arena last,
    zedisSlabInit ⟨65536, 0⟩ 2 2 2 2 = some (slab, arena) ∧
      Run sharedSlabStep OneAllocator (sharedSlab Bool slab) sampleSchedule last ∧
      last.held = [(slab256, 256)] ∧ ∃ sequential, Behaves Sequential slab
        [(.alloc 100, some 264), (.free (some 264) 100, none), (.alloc 100, some 264)] sequential := by
  have played : ((zedisSlabInit ⟨65536, 0⟩ 2 2 2 2).bind fun made =>
      (replay (fun s input => if OneAllocator s input then sharedSlabStep s input else none)
        (sharedSlab Bool made.1) sampleSchedule).map fun last => (last.held,
          observed sharedSlabStep takesEffect (sharedSlab Bool made.1) sampleSchedule)) =
      some ([(slab256, 256)],
        [(.alloc 100, some 264), (.free (some 264) 100, none), (.alloc 100, some 264)]) := by
    decide +kernel
  obtain ⟨⟨slab, arena⟩, made, played⟩ := Option.bind_eq_some_iff.mp played
  obtain ⟨last, returned, same⟩ := Option.map_eq_some_iff.mp played
  obtain ⟨held, calls⟩ := Prod.mk.inj same
  have run := Run.of_guarded returned
  obtain ⟨sequential, _, _, behaves, _⟩ := slab_linearizable made run
  rw [calls] at behaves
  exact ⟨slab, arena, last, made, run, held, sequential, behaves⟩

/-- A thread stops between the read of `head->next` and the exchange; meanwhile another thread takes both
blocks and gives the first one back. -/
def abaSchedule : List (Bool × SlabAccess) :=
  [(true, .alloc 100), (true, .readNext),
    (false, .alloc 100), (false, .readNext), (false, .exchange false), (false, .clearNext),
    (false, .alloc 100), (false, .readNext), (false, .exchange false), (false, .clearNext),
    (false, .free (some 264) 100), (false, .writeNext), (false, .exchange false),
    (true, .exchange false), (true, .clearNext),
    (true, .alloc 100), (true, .readNext), (true, .exchange false), (true, .clearNext)]

/-- **Two threads in the loop of `zedis_slab_alloc`** may be handed the same block. -/
theorem two_allocators_share : ∃ slab arena last,
    zedisSlabInit ⟨65536, 0⟩ 2 2 2 2 = some (slab, arena) ∧
      Run sharedSlabStep FreesHeld (sharedSlab Bool slab) abaSchedule last ∧ ¬ last.held.Nodup := by
  have played : ((zedisSlabInit ⟨65536, 0⟩ 2 2 2 2).bind fun made =>
      (replay (fun s input => if FreesHeld s input then sharedSlabStep s input else none)
        (sharedSlab Bool made.1) abaSchedule).map SharedSlab.held) =
      some [(slab256, 0), (slab256, 256), (slab256, 0)] := by
    decide +kernel
  obtain ⟨⟨slab, arena⟩, made, played⟩ := Option.bind_eq_some_iff.mp played
  obtain ⟨last, returned, held⟩ := Option.map_eq_some_iff.mp played
  refine ⟨slab, arena, last, made, Run.of_guarded returned, ?_⟩
  rw [held]
  decide

end Zedis.Slab

/-
**The arena allocator (`src/arena.c`), and the regions that it grants.**

An arena hands out one mapped region from `offset` on, each part rounded up to a multiple of 64. Its three
computations are in `size_t`, that is modulo `2 ^ 64`: the product of `zedis_arena_calloc`, the rounding
in `align_up`, and the sum that is compared with the size. As long as none of them wraps around for a
request that is granted, the regions follow each other inside the arena. A granted request for which one
wraps around gets a region that is longer than the arena or that begins again at `0`, where the first
region is: `regions_throughout_iff`.
-/

import Zedis.Lib.Run
import Mathlib.Algebra.Group.Nat.Defs
import Mathlib.Data.Nat.Bits
import Mathlib.Data.Nat.Bitwise

namespace Zedis.Arena

open Zedis.Lib

/-- `SIZE_MAX + 1`. -/
def sizeMod : Nat := 2 ^ 64

/-- `zedis_arena_t`, less the base address and the huge-page flag, which no allocation reads. -/
structure ZedisArena where
  size : Nat
  offset : Nat
deriving DecidableEq, Repr

/-- `align_up`: `(value + align - 1) & ~(align - 1)`. -/
def alignUp (value align : Nat) : Nat := (value + align - 1) % sizeMod &&& (sizeMod - align)

/-- `zedis_arena_alloc`: the offset of the granted region, or `none` for `NULL`. -/
def zedisArenaAlloc (arena : ZedisArena) (size align : Nat) : Option (Nat × ZedisArena) :=
  if size = 0 then none
  else
    let align := if align = 0 then 64 else align
    let start := alignUp arena.offset align
    if (start + size) % sizeMod > arena.size then none
    else some (start, { arena with offset := (start + size) % sizeMod })

/-- `zedis_arena_calloc`: the granted bytes are zeroed. -/
def zedisArenaCalloc (arena : ZedisArena) (count size align : Nat) : Option (Nat × ZedisArena) :=
  zedisArenaAlloc arena (count * size % sizeMod) align

/-! ### Requests -/

/-- A request, with the alignment of 64 that all callers ask for. -/
inductive Request
  | alloc (size : UInt64)
  | calloc (count size : UInt64)
deriving DecidableEq, Repr

/-- The number of bytes that are asked for. -/
def Request.length : Request → Nat
  | .alloc size => size.toNat
  | .calloc count size => count.toNat * size.toNat

/-- The call: the offset of the region and the arena, or `none` for `NULL`. -/
def Request.call (arena : ZedisArena) : Request → Option (Nat × ZedisArena)
  | .alloc size => zedisArenaAlloc arena size.toNat 64
  | .calloc count size => zedisArenaCalloc arena count.toNat size.toNat 64

/-- The bytes from `start` on. -/
structure Region where
  start : Nat
  length : Nat
deriving DecidableEq, Repr

/-- The byte at `j` of the arena belongs to the region. -/
def Region.Occupies (region : Region) (j : Nat) : Prop :=
  region.start ≤ j ∧ j < region.start + region.length

/-- An arena, and the regions it has granted, each with the length that was asked for. -/
structure ArenaState where
  arena : ZedisArena
  granted : List Region

/-- An arena of which nothing has been granted. -/
def freshArena (size : UInt64) : ArenaState := ⟨⟨size.toNat, 0⟩, []⟩

/-- The state a request leaves. -/
def arenaStep (s : ArenaState) (request : Request) : Option ArenaState :=
  match request.call s.arena with
  | none => some s
  | some (start, arena) => some ⟨arena, ⟨start, request.length⟩ :: s.granted⟩

/-- **The regions are apart**, inside the arena and aligned, and a refused request leaves the offset as it
was. -/
structure RegionsApart (s : ArenaState) : Prop where
  inside : ∀ region ∈ s.granted, region.start + region.length ≤ s.arena.size
  aligned : ∀ region ∈ s.granted, region.start % 64 = 0
  apart : s.granted.Pairwise fun a b => ∀ j, a.Occupies j → ¬ b.Occupies j
  refused : ∀ request next, request.call s.arena = none → arenaStep s request = some next →
    next.arena.offset = s.arena.offset

/-- If the request is granted, none of the three computations wraps around. -/
def ComputedExactly (s : ArenaState) (request : Request) : Prop :=
  (request.call s.arena).isSome → request.length < sizeMod ∧ s.arena.offset + 63 < sizeMod ∧
    alignUp s.arena.offset 64 + request.length < sizeMod

instance (s : ArenaState) (request : Request) : Decidable (ComputedExactly s request) :=
  inferInstanceAs (Decidable (_ → _))

/-! ### Rounding up -/

section Rounding

/-- The bits from `k` on. -/
theorem and_high_bits {n k x : Nat} (below : k ≤ n) (small : x < 2 ^ n) :
    x &&& (2 ^ n - 2 ^ k) = x / 2 ^ k * 2 ^ k := by
  have mask : 2 ^ n - 2 ^ k = 2 ^ k * (2 ^ (n - k) - 1) := by
    rw [Nat.mul_sub, ← Nat.pow_add, Nat.add_sub_cancel' below, Nat.mul_one]
  refine Nat.eq_of_testBit_eq fun i => ?_
  rw [mask, Nat.mul_comm (x / 2 ^ k), Nat.testBit_and, Nat.testBit_two_pow_mul,
    Nat.testBit_two_pow_mul, Nat.testBit_two_pow_sub_one, Nat.testBit_div_two_pow]
  by_cases low : k ≤ i
  · rw [Nat.sub_add_cancel low]
    by_cases high : i < n
    · simp [low, show i - k < n - k by omega]
    · rw [Nat.testBit_lt_two_pow (small.trans_le (Nat.pow_le_pow_right (by decide) (Nat.not_lt.mp high)))]
      simp
  · simp [low]

theorem alignUp_eq (value : Nat) : alignUp value 64 = (value + 63) % sizeMod / 64 * 64 :=
  and_high_bits (show 6 ≤ 64 by decide) (Nat.mod_lt _ (by decide))

/-- A rounding that does not wrap around. -/
theorem alignUp_spec {value : Nat} (exact : value + 63 < sizeMod) :
    value ≤ alignUp value 64 ∧ alignUp value 64 % 64 = 0 := by
  rw [alignUp_eq, Nat.mod_eq_of_lt exact]
  omega

/-- A rounding that wraps around begins again at the front. -/
theorem alignUp_wraps {value : Nat} (small : value < sizeMod) (wraps : ¬ value + 63 < sizeMod) :
    alignUp value 64 = 0 := by
  rw [alignUp_eq]
  unfold sizeMod at *
  omega

end Rounding

/-! ### One request -/

section Step

variable {s next : ArenaState} {request : Request}

/-- **What a granted request gets.** -/
theorem call_spec {arena after : ZedisArena} {start : Nat}
    (granted : request.call arena = some (start, after)) :
    0 < request.length ∧ start = alignUp arena.offset 64 ∧
      (start + request.length % sizeMod) % sizeMod ≤ arena.size ∧
      after = { arena with offset := (start + request.length % sizeMod) % sizeMod } := by
  have alloc : zedisArenaAlloc arena (request.length % sizeMod) 64 = some (start, after) := by
    cases request with
    | alloc size =>
      have small : size.toNat % sizeMod = size.toNat := Nat.mod_eq_of_lt size.toNat_lt
      rw [Request.length, small]
      exact granted
    | calloc count size => exact granted
  unfold zedisArenaAlloc at alloc
  obtain ⟨nonzero, alloc⟩ := Option.ite_none_left_eq_some.mp alloc
  obtain ⟨fits, same⟩ := Option.ite_none_left_eq_some.mp alloc
  cases same
  refine ⟨Nat.pos_of_ne_zero fun zero => nonzero ?_, rfl, Nat.not_lt.mp fits, rfl⟩
  rw [zero, Nat.zero_mod]

/-- **What the requests so far leave**: the regions end at the offset, and the first of them begins at
`0`. -/
structure ArenaInv (s : ArenaState) : Prop where
  word : s.arena.size < sizeMod
  offset : s.arena.offset ≤ s.arena.size
  before : ∀ region ∈ s.granted, region.start + region.length ≤ s.arena.offset
  first : 0 < s.arena.offset → ∃ region ∈ s.granted, region.Occupies 0

theorem ArenaInv.fresh (size : UInt64) : ArenaInv (freshArena size) :=
  ⟨size.toNat_lt, Nat.zero_le _, List.forall_mem_nil _, fun positive => absurd positive (Nat.lt_irrefl 0)⟩

theorem RegionsApart.fresh (size : UInt64) : RegionsApart (freshArena size) := by
  refine ⟨List.forall_mem_nil _, List.forall_mem_nil _, .nil, fun request next refused taken => ?_⟩
  rw [arenaStep, refused] at taken
  cases taken
  rfl

theorem arenaStep_refused (refused : request.call s.arena = none) : arenaStep s request = some s := by
  rw [arenaStep, refused]

theorem arenaStep_granted {start : Nat} {arena : ZedisArena}
    (granted : request.call s.arena = some (start, arena)) :
    arenaStep s request = some ⟨arena, ⟨start, request.length⟩ :: s.granted⟩ := by
  rw [arenaStep, granted]

/-- A granted request that is computed exactly gets the next free bytes. -/
theorem ComputedExactly.region (exact : ComputedExactly s request) {start : Nat} {arena : ZedisArena}
    (granted : request.call s.arena = some (start, arena)) :
    s.arena.offset ≤ start ∧ start % 64 = 0 ∧ start + request.length ≤ s.arena.size ∧
      arena = { s.arena with offset := start + request.length } := by
  obtain ⟨-, rfl, fits, made⟩ := call_spec granted
  obtain ⟨product, rounding, sum⟩ := exact (by rw [granted]; rfl)
  obtain ⟨above, aligned⟩ := alignUp_spec rounding
  rw [Nat.mod_eq_of_lt product, Nat.mod_eq_of_lt sum] at fits made
  exact ⟨above, aligned, fits, made⟩

theorem ArenaInv.step (inv : ArenaInv s) (exact : ComputedExactly s request)
    (taken : arenaStep s request = some next) : ArenaInv next := by
  cases called : request.call s.arena with
  | none =>
    rw [arenaStep_refused called] at taken
    cases taken
    exact inv
  | some result =>
    obtain ⟨start, arena⟩ := result
    obtain ⟨above, -, fits, rfl⟩ := exact.region called
    have positive := (call_spec called).1
    rw [arenaStep_granted called] at taken
    cases taken
    refine ⟨inv.word, fits, fun region member => ?_, fun _ => ?_⟩
    · rcases List.mem_cons.mp member with rfl | old
      · exact Nat.le_refl _
      · exact (inv.before region old).trans (above.trans (Nat.le_add_right _ _))
    · rcases Nat.eq_zero_or_pos s.arena.offset with empty | used
      · have zero : start = 0 := by
          rw [(call_spec called).2.1, empty]
          decide
        exact ⟨_, List.mem_cons_self, zero.le, by dsimp only; omega⟩
      · obtain ⟨region, old, occupies⟩ := inv.first used
        exact ⟨region, List.mem_cons_of_mem _ old, occupies⟩

/-- With a region that is computed exactly, all are apart. -/
theorem RegionsApart.grant (apart : RegionsApart s) (inv : ArenaInv s)
    (exact : ComputedExactly s request) {start : Nat} {arena : ZedisArena}
    (granted : request.call s.arena = some (start, arena)) :
    RegionsApart ⟨arena, ⟨start, request.length⟩ :: s.granted⟩ := by
  obtain ⟨above, aligned, fits, rfl⟩ := exact.region granted
  refine ⟨fun region member => ?_, fun region member => ?_, List.pairwise_cons.mpr ⟨?_, apart.apart⟩,
    fun request next refused taken => ?_⟩
  · rcases List.mem_cons.mp member with rfl | old
    · exact fits
    · exact apart.inside region old
  · rcases List.mem_cons.mp member with rfl | old
    · exact aligned
    · exact apart.aligned region old
  · rintro region old j ⟨low, -⟩ ⟨-, high⟩
    have ended := inv.before region old
    dsimp only at low
    omega
  · rw [arenaStep_refused refused] at taken
    cases taken
    rfl

/-- **A region that was not computed exactly is not apart from the others**, or not inside. -/
theorem RegionsApart.exact (inv : ArenaInv s) {start : Nat} {arena : ZedisArena}
    (granted : request.call s.arena = some (start, arena))
    (apart : RegionsApart ⟨arena, ⟨start, request.length⟩ :: s.granted⟩) :
    ComputedExactly s request := by
  intro _
  obtain ⟨positive, isStart, -, made⟩ := call_spec granted
  have word := inv.word
  have inside := apart.inside _ List.mem_cons_self
  rw [made] at inside
  dsimp only at inside
  refine ⟨by omega, ?_, by omega⟩
  by_contra wraps
  have used : 0 < s.arena.offset := by
    unfold sizeMod at wraps
    omega
  obtain ⟨region, old, occupies⟩ := inv.first used
  have zero : start = 0 := isStart.trans (alignUp_wraps (inv.offset.trans_lt word) wraps)
  exact (List.pairwise_cons.mp apart.apart).1 region old 0
    ⟨zero.le, by dsimp only; omega⟩ occupies

/-- **One request keeps the regions apart exactly if it is computed exactly.** -/
theorem regionsApart_step_iff (inv : ArenaInv s) (apart : RegionsApart s)
    (taken : arenaStep s request = some next) : RegionsApart next ↔ ComputedExactly s request := by
  cases called : request.call s.arena with
  | none =>
    rw [arenaStep_refused called] at taken
    cases taken
    refine iff_of_true apart fun granted => ?_
    rw [called] at granted
    cases granted
  | some result =>
    obtain ⟨start, arena⟩ := result
    rw [arenaStep_granted called] at taken
    cases taken
    exact ⟨fun after => after.exact inv called, fun exact => apart.grant inv exact called⟩

end Step

/-! ### Whole runs -/

/-- **The regions are apart throughout a run exactly if every request that is granted is computed
exactly.** -/
theorem regions_throughout_iff (size : UInt64) {requests : List Request} {last : ArenaState}
    (run : Run arenaStep Always (freshArena size) requests last) :
    (∀ n middle, Run arenaStep Always (freshArena size) (requests.take n) middle →
        RegionsApart middle) ↔
      Run arenaStep ComputedExactly (freshArena size) requests last :=
  run.throughout_iff ArenaInv RegionsApart (fun _ _ _ inv exact taken => inv.step exact taken)
    (fun _ _ _ inv apart taken => regionsApart_step_iff inv apart taken) (.fresh size) (.fresh size)

/-- A table of `1000` entries of `4384` bytes and a region of `100` bytes, in an arena of 256 MiB. -/
theorem regions_throughout_iff_table : ∃ last,
    Run arenaStep Always (freshArena 268435456) [.calloc 1000 4384, .alloc 100] last ∧
      ∀ n middle, Run arenaStep Always (freshArena 268435456)
        ([.calloc 1000 4384, .alloc 100].take n) middle → RegionsApart middle := by
  obtain ⟨last, returned⟩ := Option.isSome_iff_exists.mp
    (show (replay (fun s request => if ComputedExactly s request then arenaStep s request else none)
      (freshArena 268435456) [.calloc 1000 4384, .alloc 100]).isSome by decide +kernel)
  have exact := Run.of_guarded returned
  have run : Run arenaStep Always _ _ last := exact.mono fun _ _ _ => trivial
  exact ⟨last, run, (regions_throughout_iff 268435456 run).mpr exact⟩

/-- What the server asks for at its start, with `maxKeys` entries of `4384` bytes in the table and the
default number of connections. -/
def startRequests (maxKeys : UInt64) : List Request :=
  [.alloc (64 * 32768), .alloc (256 * 8192), .alloc (512 * 2048), .alloc (4096 * 2112),
    .calloc maxKeys 4384]

/-- **A table larger than the arena is granted**: with `2 ^ 59 + 1` entries the product is `4384` modulo
`2 ^ 64`. -/
theorem wrapped_table_granted :
    ¬ ∀ size requests last, Run arenaStep Always (freshArena size) requests last →
      RegionsApart last := by
  intro allApart
  have played : (replay arenaStep (freshArena 268435456) (startRequests 576460752303423489)).map
      (fun s => (s.granted.head?, s.arena.size)) =
        some (some ⟨13893632, 576460752303423489 * 4384⟩, 268435456) := by decide +kernel
  obtain ⟨last, returned, facts⟩ := Option.map_eq_some_iff.mp played
  obtain ⟨granted, size⟩ := Prod.mk.inj facts
  have apart := allApart _ _ last (Run.of_replay (fun _ _ _ => trivial) returned)
  have inside := apart.inside _ (List.mem_of_head? granted)
  rw [size] at inside
  exact absurd inside (by decide)

end Zedis.Arena

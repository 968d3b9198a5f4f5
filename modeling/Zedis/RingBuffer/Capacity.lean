/-
**The capacity of a ring.**

`next_power_of_two` smears the bits of `v - 1` downwards and adds one. For `v` from `1` to `2 ^ 63` its
result is a power of two (`nextPowerOfTwo_eq`), the least one from `max v 2` on (`capacityLog_least`), so
the mask that `slotIndex` applies to a sequence number is the remainder by the capacity
(`slotIndex_eq_mod`).
-/

import Zedis.Lib.Smear
import Zedis.RingBuffer.Model
import Mathlib.Data.UInt

namespace Zedis.RingBuffer

open Zedis.Lib

/-- One step of the smearing, on machine words. -/
theorem toNat_or_shift {word : UInt64} {x : Nat} (shift : UInt64) (k : Nat)
    (isStep : shift.toNat % 64 = 2 ^ k) (isSmear : word.toNat = smear x k) :
    (word ||| word >>> shift).toNat = smear x (k + 1) := by
  rw [UInt64.toNat_or, UInt64.toNat_shiftRight, isStep, isSmear, smear]

/-- The exponent of the capacity. -/
def capacityLog (v : UInt64) : Nat := if v < 2 then 1 else (v.toNat - 1).log2 + 1

/-- **The result is a power of two.** -/
theorem nextPowerOfTwo_eq {v : UInt64} (high : v.toNat ≤ 2 ^ 63) :
    (nextPowerOfTwo v).toNat = 2 ^ capacityLog v ∧ capacityLog v ≤ 63 := by
  unfold nextPowerOfTwo capacityLog
  by_cases tiny : v < 2
  · rw [if_pos tiny, if_pos tiny]
    exact ⟨rfl, by decide⟩
  · have two : 2 ≤ v.toNat := UInt64.le_iff_toNat_le.mp (UInt64.not_lt.mp tiny)
    have nonzero : v.toNat - 1 ≠ 0 := by omega
    have start : (v - 1).toNat = smear (v.toNat - 1) 0 :=
      UInt64.toNat_sub_of_le _ _ (UInt64.le_iff_toNat_le.mpr (by rw [UInt64.toNat_one]; omega))
    have all := toNat_or_shift 32 5 (by decide) <|
      toNat_or_shift 16 4 (by decide) <|
      toNat_or_shift 8 3 (by decide) <|
      toNat_or_shift 4 2 (by decide) <|
      toNat_or_shift 2 1 (by decide) <|
      toNat_or_shift 1 0 (by decide) start
    have least := (smear_succ_least (k := 6) nonzero (by omega)).1
    have few : (v.toNat - 1).log2 < 63 := (Nat.log2_lt nonzero).mpr (by omega)
    have below : 2 ^ ((v.toNat - 1).log2 + 1) ≤ 2 ^ 63 := Nat.pow_le_pow_right (by decide) few
    rw [if_neg tiny, if_neg tiny]
    refine ⟨?_, few⟩
    rw [UInt64.toNat_add, all, UInt64.toNat_one, least, Nat.mod_eq_of_lt (by omega)]

/-- **No smaller power of two is large enough.** -/
theorem capacityLog_least (v : UInt64) :
    max v.toNat 2 ≤ 2 ^ capacityLog v ∧ ∀ e, max v.toNat 2 ≤ 2 ^ e → 2 ^ capacityLog v ≤ 2 ^ e := by
  unfold capacityLog
  by_cases tiny : v < 2
  · have below : v.toNat < 2 := UInt64.lt_iff_toNat_lt.mp tiny
    rw [if_pos tiny, max_eq_right below.le]
    exact ⟨Nat.le_refl 2, fun _ large => large⟩
  · have two : 2 ≤ v.toNat := UInt64.le_iff_toNat_le.mp (UInt64.not_lt.mp tiny)
    have nonzero : v.toNat - 1 ≠ 0 := by omega
    have above : v.toNat - 1 < 2 ^ ((v.toNat - 1).log2 + 1) := Nat.lt_log2_self
    rw [if_neg tiny, max_eq_left two]
    refine ⟨by omega, fun e large => Nat.pow_le_pow_right (by decide) ?_⟩
    exact (Nat.log2_lt nonzero).mpr (by omega)

/-- A mask of ones below a power of two. -/
theorem and_sub_one_eq_mod {capacity : UInt64} {e : Nat} (isPower : capacity.toNat = 2 ^ e)
    (seq : UInt64) : seq &&& (capacity - 1) = seq % capacity := by
  have one : (1 : UInt64) ≤ capacity := by
    rw [UInt64.le_iff_toNat_le, isPower]
    exact Nat.one_le_two_pow
  refine UInt64.toNat_inj.mp ?_
  rw [UInt64.toNat_and, UInt64.toNat_sub_of_le _ _ one, UInt64.toNat_mod, isPower, UInt64.toNat_one,
    Nat.and_two_pow_sub_one_eq_mod]

/-- **The mask is the remainder by the capacity.** -/
theorem slotIndex_eq_mod {ring : ZedisRingBuffer} {e : Nat} (isPower : ring.capacity.toNat = 2 ^ e)
    (seq : UInt64) : slotIndex ring seq = seq.toNat % 2 ^ e := by
  rw [slotIndex, and_sub_one_eq_mod isPower, UInt64.toNat_mod, isPower]

/-- **The capacity is the least power of two from `max v 2` on**, and a ring of that capacity masks a
sequence number to its remainder. -/
theorem capacity_rounding {v : UInt64} (high : v.toNat ≤ 2 ^ 63) :
    (∃ e, (nextPowerOfTwo v).toNat = 2 ^ e) ∧
      max v.toNat 2 ≤ (nextPowerOfTwo v).toNat ∧
      (∀ e, max v.toNat 2 ≤ 2 ^ e → (nextPowerOfTwo v).toNat ≤ 2 ^ e) ∧
      (∀ seq, seq &&& (nextPowerOfTwo v - 1) = seq % nextPowerOfTwo v) ∧
      ∀ ring seq, ring.capacity = nextPowerOfTwo v →
        slotIndex ring seq = seq.toNat % (nextPowerOfTwo v).toNat := by
  obtain ⟨isPower, -⟩ := nextPowerOfTwo_eq high
  obtain ⟨enough, least⟩ := capacityLog_least v
  refine ⟨⟨_, isPower⟩, ?_, ?_, and_sub_one_eq_mod isPower, fun ring seq same => ?_⟩
  · rw [isPower]
    exact enough
  · rw [isPower]
    exact least
  · have ringPower : ring.capacity.toNat = 2 ^ capacityLog v := by rw [same, isPower]
    rw [slotIndex_eq_mod ringPower, isPower]

/-- The largest capacity that can be asked for is its own rounding. -/
theorem capacity_rounding_top : (0x8000000000000000 : UInt64).toNat ≤ 2 ^ 63 ∧
    nextPowerOfTwo 0x8000000000000000 = 0x8000000000000000 ∧
    ∀ seq, seq &&& (nextPowerOfTwo 0x8000000000000000 - 1) =
      seq % nextPowerOfTwo 0x8000000000000000 := by
  have high : (0x8000000000000000 : UInt64).toNat ≤ 2 ^ 63 := by decide
  exact ⟨high, by decide, (capacity_rounding high).2.2.2.1⟩

end Zedis.RingBuffer

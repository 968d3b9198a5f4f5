/-
**Rounding up to a power of two.**

`smear x k` sets, below every bit of `x`, the `2 ^ k - 1` bits that follow it: each step takes the result
of the last one together with the same shifted by as many bits as it has covered. Once the steps cover the
whole number, all bits below the highest one are set (`smear_eq`), and one more is the least power of two
above (`smear_succ_least`).
-/

import Mathlib.Data.Nat.Bitwise
import Mathlib.Tactic

namespace Zedis.Lib

/-- The number with the `2 ^ k - 1` bits below each of its bits set. -/
def smear (x : Nat) : Nat → Nat
  | 0 => x
  | k + 1 => smear x k ||| smear x k >>> 2 ^ k

theorem testBit_smear (x : Nat) : ∀ k i,
    (smear x k).testBit i = true ↔ ∃ s < 2 ^ k, x.testBit (i + s) = true
  | 0, i => by
    refine ⟨fun set => ⟨0, Nat.one_pos, set⟩, ?_⟩
    rintro ⟨s, zero, set⟩
    rw [Nat.lt_one_iff.mp zero] at set
    exact set
  | k + 1, i => by
    rw [smear, Nat.testBit_or, Nat.testBit_shiftRight, Bool.or_eq_true, testBit_smear x k,
      testBit_smear x k, Nat.pow_succ]
    constructor
    · rintro (⟨s, below, set⟩ | ⟨s, below, set⟩)
      · exact ⟨s, by omega, set⟩
      · exact ⟨2 ^ k + s, by omega, by rwa [show i + (2 ^ k + s) = 2 ^ k + i + s by omega]⟩
    · rintro ⟨s, below, set⟩
      by_cases near : s < 2 ^ k
      · exact Or.inl ⟨s, near, set⟩
      · refine Or.inr ⟨s - 2 ^ k, by omega, ?_⟩
        rwa [show 2 ^ k + i + (s - 2 ^ k) = i + s by omega]

/-- **All bits below the highest one are set.** -/
theorem smear_eq {x k : Nat} (nonzero : x ≠ 0) (small : x < 2 ^ 2 ^ k) :
    smear x k = 2 ^ (x.log2 + 1) - 1 := by
  refine Nat.eq_of_testBit_eq fun i => Bool.eq_iff_iff.mpr ?_
  rw [testBit_smear, Nat.testBit_two_pow_sub_one, decide_eq_true_eq, Nat.lt_succ_iff]
  constructor
  · rintro ⟨s, -, set⟩
    have high : i + s ≤ x.log2 := (Nat.le_log2 nonzero).mpr (Nat.ge_two_pow_of_testBit set)
    omega
  · intro below
    have covered : x.log2 < 2 ^ k := (Nat.log2_lt nonzero).mpr small
    refine ⟨x.log2 - i, by omega, ?_⟩
    rw [Nat.add_sub_cancel' below]
    exact Nat.testBit_log2 nonzero

/-- **One more is the least power of two that is larger.** -/
theorem smear_succ_least {x k : Nat} (nonzero : x ≠ 0) (small : x < 2 ^ 2 ^ k) :
    smear x k + 1 = 2 ^ (x.log2 + 1) ∧ x < 2 ^ (x.log2 + 1) ∧
      ∀ e, x < 2 ^ e → 2 ^ (x.log2 + 1) ≤ 2 ^ e := by
  refine ⟨?_, Nat.lt_log2_self, fun e above => ?_⟩
  · rw [smear_eq nonzero small, Nat.sub_add_cancel Nat.one_le_two_pow]
  · exact Nat.pow_le_pow_right (by decide) ((Nat.log2_lt nonzero).mpr above)

end Zedis.Lib

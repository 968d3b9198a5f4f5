/-
**Integers as doubles, and `%.17g`.**

`toDouble` is the conversion of an integer to a `double`, which is again an integer: the nearest one
with a significand of 53 bits, the even one of two. `printG17` is what `%.17g` prints of an integer
value: the number itself if it has at most 17 digits, and otherwise its 17 leading digits, rounded the
same way, without trailing zeros and with an exponent. A printed 64-bit integer is a short text
(`length_printG17`). An integer that is converted and printed comes out as its decimal form exactly if
it is a double of at most 17 digits (`printG17_toDouble_iff`).
-/

import Zedis.Lib.Decimal

namespace Zedis.Lib

/-- The nearest multiple of `unit`, the even one of two, divided by `unit`. -/
def roundHalfEven (unit m : Nat) : Nat :=
  let q := m / unit
  let r := m % unit
  if 2 * r < unit ∨ 2 * r = unit ∧ q % 2 = 0 then q else q + 1

/-- `(double)n`. -/
def toDouble (n : Int) : Int :=
  let unit := 2 ^ (n.natAbs.log2 + 1 - 53)
  n.sign * ↑(roundHalfEven unit n.natAbs * unit)

/-- The digits of a significand, with a point after the first if others follow. -/
def pointed : Bytes → Bytes
  | [] => []
  | [digit] => [digit]
  | digit :: digits => digit :: 46 :: digits

/-- `%.17g` of a natural number. -/
def printMagnitude (m : Nat) : Bytes :=
  if m < 10 ^ 17 then decimal m
  else
    let width := (decimal m).length
    let q := roundHalfEven (10 ^ (width - 17)) m
    let (q, exponent) := if q = 10 ^ 17 then (10 ^ 16, width) else (q, width - 1)
    pointed ((decimal q).reverse.dropWhile (· == 48)).reverse ++ ascii "e+" ++ decimal exponent

/-- `%.17g` of an integer. -/
def printG17 (n : Int) : Bytes :=
  if n < 0 then 45 :: printMagnitude n.natAbs else printMagnitude n.natAbs

section Lengths

theorem roundHalfEven_le (unit m : Nat) : roundHalfEven unit m ≤ m / unit + 1 := by
  unfold roundHalfEven
  dsimp only
  split
  · exact Nat.le_succ _
  · exact Nat.le_refl _

/-- Rounding a 64-bit integer adds at most a unit of `2 ^ 11`. -/
theorem natAbs_toDouble {n : Int} (small : n.natAbs ≤ 2 ^ 63) :
    (toDouble n).natAbs ≤ 2 ^ 63 + 2 ^ 11 := by
  have bits : n.natAbs.log2 < 64 := by
    rcases Nat.eq_zero_or_pos n.natAbs with zero | positive
    · rw [zero]
      decide
    · exact (Nat.log2_lt (Nat.ne_of_gt positive)).mpr (by omega)
  have unit_le : 2 ^ (n.natAbs.log2 + 1 - 53) ≤ 2 ^ 11 := Nat.pow_le_pow_right (by decide) (by omega)
  have rounded := Nat.mul_le_mul_right (2 ^ (n.natAbs.log2 + 1 - 53))
    (roundHalfEven_le (2 ^ (n.natAbs.log2 + 1 - 53)) n.natAbs)
  have whole := Nat.div_mul_le_self n.natAbs (2 ^ (n.natAbs.log2 + 1 - 53))
  have sign : n.sign.natAbs ≤ 1 := by
    rw [Int.natAbs_sign]
    split
    · exact Nat.zero_le 1
    · exact Nat.le_refl 1
  rw [Nat.add_mul, Nat.one_mul] at rounded
  rw [toDouble, Int.natAbs_mul, Int.natAbs_natCast]
  calc n.sign.natAbs * (roundHalfEven (2 ^ (n.natAbs.log2 + 1 - 53)) n.natAbs *
          2 ^ (n.natAbs.log2 + 1 - 53))
      ≤ 1 * (roundHalfEven (2 ^ (n.natAbs.log2 + 1 - 53)) n.natAbs *
          2 ^ (n.natAbs.log2 + 1 - 53)) := Nat.mul_le_mul_right _ sign
    _ ≤ 2 ^ 63 + 2 ^ 11 := by omega

theorem length_pointed_le (digits : Bytes) : (pointed digits).length ≤ digits.length + 1 := by
  match digits with
  | [] => exact Nat.zero_le _
  | [_] => exact Nat.le_succ _
  | _ :: _ :: _ => exact Nat.le_refl _

theorem length_printMagnitude {m : Nat} (small : m < 10 ^ 20) :
    0 < (printMagnitude m).length ∧ (printMagnitude m).length ≤ 23 := by
  have number := decimal_spec m
  have positive := List.length_pos_iff.mpr number.nonempty
  have width_le := number.short 19 small
  unfold printMagnitude
  by_cases short : m < 10 ^ 17
  · have digits := number.short 16 short
    rw [if_pos short]
    omega
  · rw [if_neg short]
    dsimp only
    generalize width_eq : (decimal m).length = width at width_le positive
    -- the significand has at most 18 digits, and the exponent at most 2
    have unit_pos : 0 < 10 ^ (width - 17) := Nat.pow_pos (by decide)
    have below : m < 10 ^ (width - 17) * 10 ^ 17 := by
      rw [← Nat.pow_add]
      exact Nat.lt_of_lt_of_le (width_eq ▸ number.lt_pow)
        (Nat.pow_le_pow_right (by decide) (by omega))
    have quotient : m / 10 ^ (width - 17) < 10 ^ 17 := Nat.div_lt_of_lt_mul below
    have rounded := roundHalfEven_le (10 ^ (width - 17)) m
    generalize parts_eq : (if roundHalfEven (10 ^ (width - 17)) m = 10 ^ 17 then (10 ^ 16, width)
      else (roundHalfEven (10 ^ (width - 17)) m, width - 1)) = parts
    have bounds : parts.1 < 10 ^ 18 ∧ parts.2 < 10 ^ 2 := by
      rw [← parts_eq]
      split
      · exact ⟨Nat.pow_lt_pow_right (by decide) (by decide), by omega⟩
      · exact ⟨by omega, by omega⟩
    have significand := (decimal_spec parts.1).short 17 bounds.1
    have exponent := (decimal_spec parts.2).short 1 bounds.2
    have stripped := (List.dropWhile_sublist (l := (decimal parts.1).reverse) (· == 48)).length_le
    have point := length_pointed_le ((decimal parts.1).reverse.dropWhile (· == 48)).reverse
    rw [List.length_reverse] at stripped point
    simp only [List.length_append, show (ascii "e+").length = 2 from rfl]
    omega

/-- **A printed 64-bit integer is short.** -/
theorem length_printG17 {n : Int} (small : n.natAbs < 10 ^ 20) :
    0 < (printG17 n).length ∧ (printG17 n).length ≤ 24 := by
  have digits := length_printMagnitude small
  unfold printG17
  split
  · rw [List.length_cons]
    omega
  · omega

end Lengths

/-! ### Integers that survive -/

/-- An integer of at most 17 digits and with a significand of at most 53 bits. -/
def ShownExactly (n : Int) : Prop :=
  n.natAbs < 10 ^ 17 ∧ 2 ^ (n.natAbs.log2 + 1 - 53) ∣ n.natAbs

instance (n : Int) : Decidable (ShownExactly n) := inferInstanceAs (Decidable (_ ∧ _))

section Exact

variable {n : Int}

theorem roundHalfEven_mul_iff {unit m : Nat} (positive : 0 < unit) :
    roundHalfEven unit m * unit = m ↔ unit ∣ m := by
  constructor
  · exact fun same => ⟨_, same.symm.trans (Nat.mul_comm _ _)⟩
  · intro divides
    have rest : m % unit = 0 := Nat.mod_eq_zero_of_dvd divides
    rw [roundHalfEven, if_pos (Or.inl (by rw [rest]; exact positive)), Nat.div_mul_cancel divides]

/-- **The doubles among the integers.** -/
theorem toDouble_eq_iff : toDouble n = n ↔ 2 ^ (n.natAbs.log2 + 1 - 53) ∣ n.natAbs := by
  rw [← roundHalfEven_mul_iff (Nat.two_pow_pos _), toDouble]
  constructor
  · intro same
    rcases eq_or_ne n 0 with rfl | nonzero
    · rfl
    · have abs := congrArg Int.natAbs same
      rwa [Int.natAbs_mul, Int.natAbs_natCast, Int.natAbs_sign_of_ne_zero nonzero, Nat.one_mul] at abs
  · intro same
    simp only [same]
    exact Int.sign_mul_natAbs n

theorem printG17_of_lt (short : n.natAbs < 10 ^ 17) : printG17 n = decimalInt n := by
  rw [printG17, decimalInt, printMagnitude, if_pos short]

/-- A longer number is printed with an exponent. -/
theorem exponent_mem_printG17 (long : ¬ n.natAbs < 10 ^ 17) : (101 : UInt8) ∈ printG17 n := by
  have marked : (101 : UInt8) ∈ printMagnitude n.natAbs := by
    rw [printMagnitude, if_neg long]
    exact List.mem_append_left _ (List.mem_append_right _ (by decide))
  unfold printG17
  split
  · exact List.mem_cons_of_mem _ marked
  · exact marked

theorem exponent_not_mem_decimalInt : (101 : UInt8) ∉ decimalInt n := by
  have plain : (101 : UInt8) ∉ decimal n.natAbs := fun member =>
    absurd ((decimal_spec n.natAbs).digits _ member) (by decide)
  unfold decimalInt
  split
  · exact List.not_mem_cons_of_ne_of_not_mem (by decide) plain
  · exact plain

/-- **An integer that is converted and printed** comes out as its decimal form exactly if it has at
most 17 digits and is a double. -/
theorem printG17_toDouble_iff : printG17 (toDouble n) = decimalInt n ↔ ShownExactly n := by
  constructor
  · intro same
    have short : (toDouble n).natAbs < 10 ^ 17 := by
      by_contra long
      exact exponent_not_mem_decimalInt (same ▸ exponent_mem_printG17 long)
    rw [printG17_of_lt short] at same
    have isDouble := decimalInt_injective same
    rw [isDouble] at short
    exact ⟨short, toDouble_eq_iff.mp isDouble⟩
  · rintro ⟨short, divides⟩
    rw [toDouble_eq_iff.mpr divides, printG17_of_lt short]

/-- Every integer up to `2 ^ 53` survives. -/
theorem shownExactly_of_le (small : n.natAbs ≤ 2 ^ 53) : ShownExactly n := by
  refine ⟨small.trans_lt (by decide), ?_⟩
  rcases Nat.lt_or_eq_of_le small with less | same
  · have bits : n.natAbs.log2 < 53 := by
      rcases Nat.eq_zero_or_pos n.natAbs with zero | positive
      · rw [zero]
        decide
      · exact (Nat.log2_lt (Nat.ne_of_gt positive)).mpr less
    rw [Nat.sub_eq_zero_of_le bits]
    exact Nat.one_dvd _
  · rw [same]
    decide

end Exact

end Zedis.Lib

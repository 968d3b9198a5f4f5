/-
**Decimal texts are read back.**

`digitsValue` is the number a string of digits stands for. The text that `decimal` prints consists of
digits, is as long as the number needs and has the number as its value (`decimal_spec`). `Numeral` are
the texts of integers, with a sign and any number of leading zeros; each stands for one integer, and
the printed text of an integer is one for it.
-/

import Zedis.Lib.Bytes
import Mathlib.Data.List.Induction
import Mathlib.Algebra.Group.Int.Defs
import Mathlib.Algebra.Group.Nat.Defs

namespace Zedis.Lib

/-- The number that a string of digits stands for. -/
def digitsValue (digits : Bytes) : Nat := digits.foldl (fun n b => n * 10 + (b.toNat - 48)) 0

theorem digitsValue_snoc (digits : Bytes) (b : UInt8) :
    digitsValue (digits ++ [b]) = digitsValue digits * 10 + (b.toNat - 48) := by
  rw [digitsValue, List.foldl_append]
  rfl

section Digit

variable {n : Nat}

theorem toNat_digit (small : n < 10) : ((48 + n).toUInt8).toNat = 48 + n :=
  UInt8.toNat_ofNat_of_lt' (by unfold UInt8.size; omega)

theorem isDigit_digit (small : n < 10) : isDigit (48 + n).toUInt8 = true := by
  have value := toNat_digit small
  simp only [isDigit, Bool.and_eq_true, decide_eq_true_eq, UInt8.le_iff_toNat_le, value]
  exact ⟨Nat.le_add_right 48 n, by change 48 + n ≤ 57; omega⟩

end Digit

/-- A text of digits for `n`, no longer than `n` needs. -/
structure Digits (n : Nat) (text : Bytes) : Prop where
  nonempty : text ≠ []
  digits : ∀ b ∈ text, isDigit b = true
  value : digitsValue text = n
  short : ∀ width, n < 10 ^ (width + 1) → text.length ≤ width + 1

theorem Digits.one {n : Nat} (small : n < 10) : Digits n [(48 + n).toUInt8] where
  nonempty := List.cons_ne_nil _ _
  digits := fun b member => by
    rw [List.mem_singleton.mp member]
    exact isDigit_digit small
  value := by
    change 0 * 10 + (((48 + n).toUInt8).toNat - 48) = n
    rw [toNat_digit small]
    omega
  short := fun width _ => Nat.le_add_left 1 width

theorem Digits.snoc {n : Nat} {text : Bytes} (large : 10 ≤ n) (tens : Digits (n / 10) text) :
    Digits n (text ++ [(48 + n % 10).toUInt8]) where
  nonempty := by simp
  digits := fun b member => by
    rcases List.mem_append.mp member with old | last
    · exact tens.digits b old
    · rw [List.mem_singleton.mp last]
      exact isDigit_digit (Nat.mod_lt n (by decide))
  value := by
    rw [digitsValue_snoc, tens.value, toNat_digit (Nat.mod_lt n (by decide))]
    omega
  short := fun width bound => by
    rw [List.length_append, List.length_singleton]
    cases width with
    | zero => omega
    | succ width =>
      have := tens.short width (by rw [Nat.pow_succ] at bound; omega)
      omega

theorem decimalLoop_spec : ∀ (fuel n : Nat) (tail : Bytes), n < fuel →
    ∃ text, decimalLoop fuel n tail = text ++ tail ∧ Digits n text
  | 0, _, _, enough => absurd enough (Nat.not_lt_zero _)
  | fuel + 1, n, tail, enough => by
    unfold decimalLoop
    by_cases small : n < 10
    · rw [if_pos small]
      exact ⟨_, rfl, .one small⟩
    · obtain ⟨text, same, tens⟩ := decimalLoop_spec fuel (n / 10)
        ((48 + n % 10).toUInt8 :: tail) (by omega)
      rw [if_neg small, same]
      exact ⟨_, List.append_cons text _ tail, tens.snoc (Nat.not_lt.mp small)⟩

/-- **The printed number.** -/
theorem decimal_spec (n : Nat) : Digits n (decimal n) := by
  obtain ⟨text, same, digits⟩ := decimalLoop_spec (n + 1) n [] (Nat.lt_succ_self n)
  rw [decimal, same, List.append_nil]
  exact digits

theorem digitsValue_lt {digits : Bytes} (all : ∀ b ∈ digits, isDigit b = true) :
    digitsValue digits < 10 ^ digits.length := by
  induction digits using List.reverseRecOn with
  | nil => exact Nat.one_pos
  | append_singleton digits b ih =>
    have digit := all b (List.mem_append_right _ (List.mem_singleton_self b))
    simp only [isDigit, Bool.and_eq_true, decide_eq_true_eq, UInt8.le_iff_toNat_le] at digit
    have atMost : b.toNat ≤ 57 := digit.2
    have less := ih fun c member => all c (List.mem_append_left _ member)
    rw [digitsValue_snoc, List.length_append, List.length_singleton, Nat.pow_succ]
    omega

/-- A number of many digits is large. -/
theorem Digits.lt_pow {n : Nat} {text : Bytes} (number : Digits n text) : n < 10 ^ text.length :=
  number.value ▸ digitsValue_lt number.digits

/-- The digits in front of a byte that is none are the ones that are scanned. -/
theorem Digits.takeWhile {n : Nat} {text rest : Bytes} {b : UInt8} (number : Digits n text)
    (stops : isDigit b = false) : (text ++ b :: rest).takeWhile isDigit = text := by
  rw [List.takeWhile_append_of_pos number.digits, List.takeWhile_cons, stops]
  exact List.append_nil text

/-! ### Signed numerals -/

/-- **The text is an optional minus sign and one or more digits**, for the integer `n`. -/
inductive Numeral : Bytes → Int → Prop
  | plain {digits : Bytes} : digits ≠ [] → (∀ b ∈ digits, isDigit b = true) →
      Numeral digits (digitsValue digits)
  | minus {digits : Bytes} : digits ≠ [] → (∀ b ∈ digits, isDigit b = true) →
      Numeral (45 :: digits) (-(digitsValue digits : Int))

/-- A numeral stands for one integer. -/
theorem Numeral.unique {text : Bytes} {n m : Int} (one : Numeral text n) (two : Numeral text m) :
    n = m := by
  -- a minus sign is not a digit
  have unsigned : ∀ {digits : Bytes}, ¬ ∀ b ∈ 45 :: digits, isDigit b = true :=
    fun all => absurd (all 45 List.mem_cons_self) (by decide)
  cases one with
  | plain nonempty all =>
    cases two with
    | plain => rfl
    | minus => exact absurd all unsigned
  | minus nonempty all =>
    cases two with
    | plain _ signed => exact absurd signed unsigned
    | minus => rfl

/-- The printed integer is a numeral for it. -/
theorem numeral_decimalInt (n : Int) : Numeral (decimalInt n) n := by
  have number := decimal_spec n.natAbs
  unfold decimalInt
  split
  · have signed := Numeral.minus number.nonempty number.digits
    rw [number.value] at signed
    rwa [show n = -(n.natAbs : Int) by omega, Int.natAbs_neg, Int.natAbs_natCast]
  · have unsigned := Numeral.plain number.nonempty number.digits
    rw [number.value] at unsigned
    rwa [show n = (n.natAbs : Int) by omega, Int.natAbs_natCast]

/-- Different integers are printed differently. -/
theorem decimalInt_injective : Function.Injective decimalInt := fun n m same =>
  (numeral_decimalInt n).unique (same ▸ numeral_decimalInt m)

end Zedis.Lib

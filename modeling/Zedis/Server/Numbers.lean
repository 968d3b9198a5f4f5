/-
**Numbers in commands and in headers.**

`parse_i64` reads the numbers of commands and `resp__parse_int` those of the protocol. They are the same
function of the text (`parseI64_eq`, `respParseInt_segment`): both accept every numeral, however long, and
return its value modulo `2 ^ 64` (`readInt_eq_some_iff`). So they are exact for the numerals of 64-bit
integers and for the texts that are no numerals, and for no others (`parses_exactly_iff`).
-/

import Zedis.Resp.Encode
import Zedis.Server.Model

namespace Zedis.Server

open Zedis.Lib Zedis.Resp

/-- The integers that an `int64_t` holds. -/
def IsInt64 (n : Int) : Prop := -2 ^ 63 ≤ n ∧ n < 2 ^ 63

/-- **The text is read exactly**: it is accepted if and only if it is a numeral of a 64-bit integer, with
this integer as the result, by `parse_i64` and, wherever in a buffer it stands, by `resp__parse_int`; and
the two agree. -/
structure ParsesExactly (text : Bytes) : Prop where
  command : ∀ n, parseI64 text = some n ↔ Numeral text n ∧ IsInt64 n
  header : ∀ buf start n, segment buf start text.length = text →
    (respParseInt buf start (start + text.length) = some n ↔ Numeral text n ∧ IsInt64 n)
  agree : ∀ buf start, segment buf start text.length = text →
    respParseInt buf start (start + text.length) = parseI64 text

/-! ### What is read -/

section Read

variable {text digits : Bytes}

theorem digits_of_foldlM : ∀ {digits : Bytes} {value last : Int},
    digits.foldlM digitStep value = some last → ∀ b ∈ digits, isDigit b = true
  | [], _, _, _, _, member => nomatch member
  | b :: digits, value, last, read, c, member => by
    rw [List.foldlM_cons, digitStep] at read
    by_cases digit : isDigit b = true
    · rw [if_pos digit] at read
      rcases List.mem_cons.mp member with rfl | later
      · exact digit
      · exact digits_of_foldlM read c later
    · rw [if_neg digit] at read
      cases read

theorem readDigits_eq_some_iff {neg : Bool} {n : Int} : readDigits neg digits = some n ↔
    digits ≠ [] ∧ (∀ b ∈ digits, isDigit b = true) ∧
      n = wrap64 (if neg then -(digitsValue digits : Int) else digitsValue digits) := by
  have value : (∀ b ∈ digits, isDigit b = true) →
      digits.foldlM digitStep 0 = some (wrap64 (digitsValue digits)) := fun all => foldlM_digitStep all 0
  have signed : (if neg then wrap64 (-wrap64 (digitsValue digits)) else wrap64 (digitsValue digits)) =
      wrap64 (if neg then -(digitsValue digits : Int) else digitsValue digits) := by
    cases neg with
    | true => rw [if_pos rfl, if_pos rfl, wrap64_neg]
    | false => rw [if_neg Bool.false_ne_true, if_neg Bool.false_ne_true]
  unfold readDigits
  by_cases empty : digits = []
  · rw [if_pos empty]
    exact ⟨nofun, fun said => absurd empty said.1⟩
  · rw [if_neg empty]
    constructor
    · intro read
      obtain ⟨last, folded, -⟩ := Option.map_eq_some_iff.mp read
      have all := digits_of_foldlM folded
      rw [value all, Option.map_some, signed] at read
      exact ⟨empty, all, (Option.some.inj read).symm⟩
    · rintro ⟨-, all, rfl⟩
      rw [value all, Option.map_some, signed]

/-- **A text is accepted if it is a numeral**, and read modulo `2 ^ 64`. -/
theorem readInt_eq_some_iff {n : Int} : readInt text = some n ↔ ∃ m, Numeral text m ∧ n = wrap64 m := by
  cases text with
  | nil =>
    refine ⟨nofun, ?_⟩
    rintro ⟨m, numeral, -⟩
    cases numeral with
    | plain nonempty _ => exact absurd rfl nonempty
  | cons b rest =>
    rw [readInt]
    by_cases minus : b = 45
    · subst minus
      rw [if_pos rfl, readDigits_eq_some_iff, if_pos rfl]
      constructor
      · rintro ⟨nonempty, all, same⟩
        exact ⟨_, .minus nonempty all, same⟩
      · rintro ⟨m, numeral, rfl⟩
        cases numeral with
        | plain _ all => exact absurd (all 45 List.mem_cons_self) (by decide)
        | minus nonempty all => exact ⟨nonempty, all, rfl⟩
    · rw [if_neg minus, readDigits_eq_some_iff, if_neg Bool.false_ne_true]
      constructor
      · rintro ⟨nonempty, all, same⟩
        exact ⟨_, .plain nonempty all, same⟩
      · rintro ⟨m, numeral, rfl⟩
        cases numeral with
        | plain nonempty all => exact ⟨nonempty, all, rfl⟩
        | minus => exact absurd rfl minus

/-- `parse_i64` reads what `resp__parse_int` reads. -/
theorem parseI64_eq (text : Bytes) : parseI64 text = readInt text := by
  cases text with
  | nil => rfl
  | cons b rest =>
    rw [parseI64, if_neg (List.length_pos_of_mem List.mem_cons_self).ne', readInt, List.head?_cons]
    by_cases minus : b = 45
    · subst minus
      simp only [beq_self_eq_true, if_true, List.tail_cons, List.length_eq_zero_iff]
      rfl
    · have other : (some b == some (45 : UInt8)) = false := beq_false_of_ne fun same =>
        minus (Option.some.inj same)
      simp only [other, Bool.false_eq_true, if_false, if_neg minus, List.length_eq_zero_iff]
      rfl

theorem respParseInt_segment {buf : Nat → UInt8} {start : Nat}
    (stands : segment buf start text.length = text) :
    respParseInt buf start (start + text.length) = readInt text := by
  rw [respParseInt_eq, Nat.add_sub_cancel_left, stands]

/-- A numeral is read as its integer exactly if this is a 64-bit integer. -/
theorem readInt_exact_iff : (∀ n, readInt text = some n ↔ Numeral text n ∧ IsInt64 n) ↔
    ∀ n, Numeral text n → IsInt64 n := by
  constructor
  · intro exact n numeral
    have read : readInt text = some (wrap64 n) := readInt_eq_some_iff.mpr ⟨n, numeral, rfl⟩
    have same := numeral.unique ((exact _).mp read).1
    rw [same]
    exact wrap64_range n
  · intro inside n
    rw [readInt_eq_some_iff]
    constructor
    · rintro ⟨m, numeral, rfl⟩
      obtain ⟨low, high⟩ := inside m numeral
      rw [wrap64_of_range low high]
      exact ⟨numeral, low, high⟩
    · rintro ⟨numeral, low, high⟩
      exact ⟨n, numeral, (wrap64_of_range low high).symm⟩

end Read

/-- **A text is read exactly if and only if it is not a numeral outside the 64-bit range.** -/
theorem parses_exactly_iff (text : Bytes) :
    ParsesExactly text ↔ ∀ n, Numeral text n → IsInt64 n := by
  rw [← readInt_exact_iff]
  constructor
  · intro exact n
    rw [← parseI64_eq]
    exact exact.command n
  · intro exact
    refine ⟨fun n => ?_, fun buf start n stands => ?_, fun buf start stands => ?_⟩
    · rw [parseI64_eq]
      exact exact n
    · rw [respParseInt_segment stands]
      exact exact n
    · rw [respParseInt_segment stands, parseI64_eq]

/-- **The header of `2 ^ 64 + 1` is read as that of `1`**, by the server, and by the parser after `$` and
after `*`. -/
theorem long_header_wraps :
    Numeral (ascii "18446744073709551617") (2 ^ 64 + 1) ∧
      parseI64 (ascii "18446744073709551617") = some 1 ∧
      (∀ typeByte ∈ ascii "$*", ∀ parse after,
        decodeLine parse typeByte (ascii "18446744073709551617") after =
          decodeLine parse typeByte (ascii "1") after) ∧
      ¬ ParsesExactly (ascii "18446744073709551617") := by
  have numeral : Numeral (ascii "18446744073709551617") (2 ^ 64 + 1) :=
    .plain (by decide) (by decide +kernel)
  have read : parseI64 (ascii "18446744073709551617") = some 1 := by decide +kernel
  have same : readInt (ascii "18446744073709551617") = readInt (ascii "1") := by
    rw [← parseI64_eq, ← parseI64_eq, read]
    decide +kernel
  refine ⟨numeral, read, fun typeByte isHeader parse after => ?_, fun exact => ?_⟩
  · have text : typeByte ≠ 43 ∧ typeByte ≠ 45 := by
      have bytes : ascii "$*" = [36, 42] := by decide
      rw [bytes] at isHeader
      rcases List.mem_cons.mp isHeader with rfl | isArray
      · exact ⟨by decide, by decide⟩
      · rw [List.mem_singleton.mp isArray]
        exact ⟨by decide, by decide⟩
    simp only [decodeLine, if_neg text.1, if_neg text.2, same]
  · have one := numeral.unique ((exact.command 1).mp read).1
    exact absurd one (by decide +kernel)

end Zedis.Server

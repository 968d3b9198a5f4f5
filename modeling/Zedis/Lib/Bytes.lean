/-
**Byte strings.**

C byte strings together with their length, the comparison of `memcmp`, what `printf` makes of a number
and of a string that a NUL may end, and little-endian numbers: `leBytes width n` are the low `width`
bytes of `n`, the least significant one first, and `leValue` reads them back.
-/

import Mathlib.Algebra.Group.Nat.Defs
import Mathlib.Data.List.Basic
import Mathlib.Data.List.TakeWhile

namespace Zedis.Lib

/-- A C byte string together with its length. -/
abbrev Bytes := List UInt8

/-- The sign of `memcmp` over the first `n` bytes. -/
def memcmp : Nat → Bytes → Bytes → Int
  | 0, _, _ => 0
  | n + 1, a :: as, b :: bs => if a < b then -1 else if b < a then 1 else memcmp n as bs
  | _ + 1, _, _ => 0

/-- The comparison of two strings by `memcmp` over the shorter length, then by length. -/
def bytesCmp (a b : Bytes) : Int :=
  let n := if a.length < b.length then a.length else b.length
  let rc := memcmp n a b
  if rc ≠ 0 then rc
  else if a.length < b.length then -1
  else if a.length > b.length then 1
  else 0

/-- The line end of the protocol. -/
def crlf : Bytes := [13, 10]

/-- `isdigit`. -/
def isDigit (b : UInt8) : Bool := 48 ≤ b && b ≤ 57

/-- The decimal digits of `n`, in front of `tail`; `fuel` bounds their number. -/
def decimalLoop : Nat → Nat → Bytes → Bytes
  | 0, _, tail => tail
  | fuel + 1, n, tail =>
    if n < 10 then (48 + n).toUInt8 :: tail
    else decimalLoop fuel (n / 10) ((48 + n % 10).toUInt8 :: tail)

/-- The decimal form of `n`, as `%zu`, `%u` and `%d` print it. -/
def decimal (n : Nat) : Bytes := decimalLoop (n + 1) n []

/-- The decimal form of an integer, as `PRId64` prints it. -/
def decimalInt (n : Int) : Bytes := if n < 0 then 45 :: decimal n.natAbs else decimal n.natAbs

/-- The bytes of a string literal. -/
def ascii (text : String) : Bytes := text.toList.map fun c => c.toNat.toUInt8

/-- The bytes up to the first NUL: what `strlen` counts, and what `%s` and `%.*s` print. -/
def cstr (bytes : Bytes) : Bytes := bytes.takeWhile (· ≠ 0)

/-- What `snprintf` of a text writes to a buffer of `cap` bytes; it returns the length of the text. -/
def snprintf (cap : Nat) (text : Bytes) : Bytes := if cap = 0 then [] else text.take (cap - 1) ++ [0]

/-! ### Strings -/

theorem cstr_eq_self {bytes : Bytes} (noNul : 0 ∉ bytes) : cstr bytes = bytes :=
  List.takeWhile_eq_self_iff.mpr fun _ member => decide_eq_true fun isNul => noNul (isNul ▸ member)

/-- A string that its first NUL does not shorten has none. -/
theorem cstr_length_eq_iff {bytes : Bytes} : (cstr bytes).length = bytes.length ↔ 0 ∉ bytes := by
  constructor
  · intro same isNul
    have all := List.IsPrefix.eq_of_length (List.takeWhile_prefix _) same
    have kept := List.takeWhile_eq_self_iff.mp all 0 isNul
    exact absurd rfl (of_decide_eq_true kept)
  · exact fun noNul => congrArg List.length (cstr_eq_self noNul)

/-! ### Comparison -/

theorem bytesCmp_cons (x y : UInt8) (xs ys : Bytes) : bytesCmp (x :: xs) (y :: ys) =
    if x < y then -1 else if y < x then 1 else bytesCmp xs ys := by
  have shorter : (if xs.length < ys.length then xs.length + 1 else ys.length + 1) =
      (if xs.length < ys.length then xs.length else ys.length) + 1 := by
    split
    · rfl
    · rfl
  unfold bytesCmp
  simp only [List.length_cons, Nat.add_lt_add_iff_right, gt_iff_lt, shorter, memcmp]
  by_cases less : x < y
  · simp only [if_pos less]
    rfl
  · simp only [if_neg less]
    by_cases more : y < x
    · simp only [if_pos more]
      rfl
    · simp only [if_neg more]

/-- **The comparison is the lexicographic one**, a proper prefix first. -/
theorem bytesCmp_cases : ∀ a b : Bytes,
    a < b ∧ bytesCmp a b < 0 ∨ a = b ∧ bytesCmp a b = 0 ∨ b < a ∧ 0 < bytesCmp a b
  | [], [] => Or.inr (Or.inl ⟨rfl, rfl⟩)
  | [], y :: ys => Or.inl ⟨List.nil_lt_cons y ys, by simp [bytesCmp, memcmp]⟩
  | x :: xs, [] => Or.inr (Or.inr ⟨List.nil_lt_cons x xs, by simp [bytesCmp, memcmp]⟩)
  | x :: xs, y :: ys => by
    rw [bytesCmp_cons]
    by_cases less : x < y
    · rw [if_pos less]
      exact Or.inl ⟨List.cons_lt_cons_iff.mpr (Or.inl less), by decide⟩
    · rw [if_neg less]
      by_cases more : y < x
      · rw [if_pos more]
        exact Or.inr (Or.inr ⟨List.cons_lt_cons_iff.mpr (Or.inl more), by decide⟩)
      · rw [if_neg more]
        have same : x = y := UInt8.le_antisymm (UInt8.not_lt.mp more) (UInt8.not_lt.mp less)
        subst same
        rcases bytesCmp_cases xs ys with ⟨first, sign⟩ | ⟨rfl, sign⟩ | ⟨second, sign⟩
        · exact Or.inl ⟨List.cons_lt_cons_iff.mpr (Or.inr ⟨rfl, first⟩), sign⟩
        · exact Or.inr (Or.inl ⟨rfl, sign⟩)
        · exact Or.inr (Or.inr ⟨List.cons_lt_cons_iff.mpr (Or.inr ⟨rfl, second⟩), sign⟩)

theorem bytesCmp_le_zero_iff (a b : Bytes) : bytesCmp a b ≤ 0 ↔ a ≤ b := by
  rw [← List.not_lt]
  rcases bytesCmp_cases a b with ⟨less, sign⟩ | ⟨rfl, sign⟩ | ⟨more, sign⟩
  · exact ⟨fun _ => List.lt_asymm less, fun _ => by omega⟩
  · exact ⟨fun _ => List.lt_irrefl a, fun _ => by omega⟩
  · exact ⟨fun small => absurd small (by omega), fun small => absurd more small⟩

theorem bytesCmp_lt_zero_iff (a b : Bytes) : bytesCmp a b < 0 ↔ a < b := by
  rcases bytesCmp_cases a b with ⟨less, sign⟩ | ⟨rfl, sign⟩ | ⟨more, sign⟩
  · exact ⟨fun _ => less, fun _ => sign⟩
  · exact ⟨fun small => absurd small (by omega), fun small => absurd small (List.lt_irrefl a)⟩
  · exact ⟨fun small => absurd small (by omega), fun small => absurd more (List.lt_asymm small)⟩

/-- **Equal lengths and no difference**: equal strings. -/
theorem memcmp_eq_zero_iff : ∀ {a b : Bytes}, a.length = b.length →
    (memcmp b.length a b = 0 ↔ a = b)
  | [], [], _ => by simp [memcmp]
  | x :: xs, y :: ys, same => by
    have rest := memcmp_eq_zero_iff (Nat.succ.inj same)
    simp only [List.length_cons, memcmp, List.cons.injEq]
    by_cases less : x < y
    · rw [if_pos less]
      exact ⟨nofun, fun equal => absurd less (by rw [equal.1]; exact UInt8.lt_irrefl y)⟩
    · rw [if_neg less]
      by_cases more : y < x
      · rw [if_pos more]
        exact ⟨nofun, fun equal => absurd more (by rw [equal.1]; exact UInt8.lt_irrefl y)⟩
      · rw [if_neg more, rest]
        have equal : x = y := UInt8.le_antisymm (UInt8.not_lt.mp more) (UInt8.not_lt.mp less)
        exact ⟨fun tail => ⟨equal, tail⟩, fun both => both.2⟩

/-! ### Little-endian numbers -/

def leBytes : Nat → Nat → Bytes
  | 0, _ => []
  | width + 1, n => UInt8.ofNat n :: leBytes width (n / 256)

def leValue : Bytes → Nat
  | [] => 0
  | b :: bytes => b.toNat + 256 * leValue bytes

@[simp]
theorem length_leBytes (width : Nat) : ∀ n, (leBytes width n).length = width := by
  induction width with
  | zero => exact fun n => rfl
  | succ width ih => exact fun n => by rw [leBytes, List.length_cons, ih]

/-- **A number that fits is read back.** -/
theorem leValue_leBytes (width : Nat) : ∀ n < 256 ^ width, leValue (leBytes width n) = n := by
  induction width with
  | zero =>
    intro n small
    rw [Nat.pow_zero, Nat.lt_one_iff] at small
    exact small.symm
  | succ width ih =>
    intro n small
    have rest : n / 256 < 256 ^ width := Nat.div_lt_of_lt_mul (by rwa [Nat.pow_succ'] at small)
    rw [leBytes, leValue, ih _ rest, UInt8.toNat_ofNat']
    exact Nat.mod_add_div n 256

end Zedis.Lib

/-
**The index of a key.**

The hash table of a registry is only ever inserted into, so it stays in Robin Hood order and is a map
from keys to decimal texts. `IndexOk reg index`: this map is `index`, each index is below `used` and
belongs to one key. `lookup_index` reads it (`lookupIndex_eq`), and a request on a key assigns an index
to this key at most, and never another one than it had (`indexForKey_spec`).
-/

import Zedis.HashTable.SafeRuns
import Zedis.Registry.Model

namespace Zedis.Registry

open Zedis.Lib Zedis.Arena Zedis.HashTable

/-- The keys have these indices. -/
structure IndexOk (reg : KeyIndex) (index : Bytes → Option Nat) : Prop where
  ordered : Ordered reg.keys
  represents : Represents reg.keys fun key => (index key).map decimal
  below : ∀ key i, index key = some i → i < reg.used
  apart : ∀ key key' i, index key = some i → index key' = some i → key = key'
  used_le : reg.used ≤ reg.max
  max_lt : reg.max < 2 ^ 32

/-- At most `key` gets an index, if it had none. -/
structure Assigns (key : Bytes) (index index' : Bytes → Option Nat) : Prop where
  kept : ∀ other i, index other = some i → index' other = some i
  others : ∀ other, other ≠ key → index' other = index other

theorem Assigns.refl (key : Bytes) (index : Bytes → Option Nat) : Assigns key index index :=
  ⟨fun _ _ has => has, fun _ _ => rfl⟩

/-! ### The stored text -/

section Text

variable {n : Nat}

/-- A printed index is read back. -/
theorem strtoul_decimal (small : n < 2 ^ 32) : strtoul (decimal n ++ [0]) = n := by
  have number := decimal_spec n
  obtain ⟨first, rest, text⟩ := List.exists_cons_of_ne_nil number.nonempty
  have digit := number.digits first (by rw [text]; exact List.mem_cons_self)
  simp only [isDigit, Bool.and_eq_true, decide_eq_true_eq, UInt8.le_iff_toNat_le] at digit
  have atLeast : 48 ≤ first.toNat := digit.1
  have notSpace : isSpace first = false := by
    refine Bool.eq_false_iff.mpr fun space => ?_
    simp only [isSpace, Bool.or_eq_true, beq_iff_eq, Bool.and_eq_true, decide_eq_true_eq,
      UInt8.le_iff_toNat_le] at space
    rcases space with blank | ⟨-, small⟩
    · rw [blank] at atLeast
      exact absurd atLeast (by decide)
    · exact absurd (atLeast.trans small) (by decide)
  have noSign : ∀ sign : UInt8, sign.toNat < 48 → ((decimal n ++ [0]).head? == some sign) = false := by
    intro sign isSign
    rw [text]
    refine beq_eq_false_iff_ne.mpr fun same => ?_
    rw [Option.some.inj same] at atLeast
    exact absurd atLeast isSign.not_ge
  have noBlank : (decimal n ++ [0]).dropWhile isSpace = decimal n ++ [0] := by
    rw [text]
    exact List.dropWhile_cons_of_neg (by rw [notSpace]; decide)
  unfold strtoul
  dsimp only
  rw [noBlank, noSign 45 (by decide), noSign 43 (by decide)]
  simp only [Bool.or_self, Bool.false_eq_true, if_false]
  rw [number.takeWhile (by decide), number.value, if_neg (by unfold sizeMod; omega)]

theorem length_decimal (small : n < 2 ^ 32) : (decimal n).length ≤ 10 :=
  (decimal_spec n).short 9 (lt_trans small (by decide))

theorem copyOut_decimal (small : n < 2 ^ 32) : (copyOut (decimal n) 32).valueOut = decimal n ++ [0] := by
  have short := length_decimal small
  rw [copyOut, if_pos (by decide), if_pos (by omega), List.take_length]

end Text

/-! ### Lookup and assignment -/

section Assignment

variable {reg : KeyIndex} {index : Bytes → Option Nat}

/-- **`lookup_index` reads the index of a key.** -/
theorem lookupIndex_eq (ok : IndexOk reg index) (key : Bytes) :
    lookupIndex reg.keys key = some (index key) := by
  rw [lookupIndex, zedisHtGet_represents ok.ordered ok.represents, Option.map_some, Option.map_map,
    Option.map_map]
  cases found : index key with
  | none => rfl
  | some i =>
    have small : i < 2 ^ 32 := ((ok.below key i found).trans_le ok.used_le).trans ok.max_lt
    simp only [Option.map_some, Function.comp_apply]
    rw [copyOut_decimal small, strtoul_decimal small, Nat.mod_eq_of_lt small]

/-- The next index goes to a key that has none. -/
theorem IndexOk.assign (ok : IndexOk reg index) {key : Bytes} (free : reg.used < reg.max)
    {keys : ZedisHashTable} (ordered : Ordered keys)
    (represents : Represents keys (Function.update (fun key => (index key).map decimal) key
      (some (decimal reg.used)))) :
    IndexOk { reg with keys := keys, used := reg.used + 1 }
      (Function.update index key (some reg.used)) where
  ordered := ordered
  represents := by
    change Represents keys (Option.map decimal ∘ Function.update index key (some reg.used))
    rw [Function.comp_update]
    exact represents
  below := by
    intro other i has
    by_cases same : other = key
    · rw [same, Function.update_self] at has
      cases has
      exact Nat.lt_succ_self _
    · rw [Function.update_of_ne same] at has
      exact Nat.lt_succ_of_lt (ok.below other i has)
  apart := by
    have old : ∀ other i, other ≠ key → Function.update index key (some reg.used) other = some i →
        index other = some i ∧ i < reg.used := by
      intro other i differs has
      rw [Function.update_of_ne differs] at has
      exact ⟨has, ok.below other i has⟩
    have new : ∀ i, Function.update index key (some reg.used) key = some i → i = reg.used := by
      intro i has
      rw [Function.update_self] at has
      exact (Option.some.inj has).symm
    intro first second i has has'
    by_cases one : first = key
    · by_cases two : second = key
      · exact one.trans two.symm
      · subst one
        exact absurd (new i has) (old second i two has').2.ne
    · by_cases two : second = key
      · subst two
        exact absurd (new i has') (old first i one has).2.ne
      · exact ok.apart first second i (old first i one has).1 (old second i two has').1
  used_le := free
  max_lt := ok.max_lt

/-- An index that was not stored is used up. -/
theorem IndexOk.burn (ok : IndexOk reg index) (free : reg.used < reg.max) :
    IndexOk { reg with used := reg.used + 1 } index :=
  ⟨ok.ordered, ok.represents, fun key i has => Nat.lt_succ_of_lt (ok.below key i has), ok.apart, free,
    ok.max_lt⟩

/-- What the search for the index of a request does. -/
inductive IndexResult (reg : KeyIndex) (index : Bytes → Option Nat) (key : Bytes) :
    Option Nat → KeyIndex → (Bytes → Option Nat) → Prop
  | found (i : Nat) : index key = some i → IndexResult reg index key (some i) reg index
  | full : index key = none → reg.max ≤ reg.used → IndexResult reg index key none reg index
  | burned : index key = none → reg.used < reg.max → Refused reg.keys key (decimal reg.used) →
      IndexResult reg index key none { reg with used := reg.used + 1 } index
  | assigned (keys : ZedisHashTable) : index key = none → reg.used < reg.max →
      ¬ Refused reg.keys key (decimal reg.used) →
      IndexResult reg index key (some reg.used) { reg with keys := keys, used := reg.used + 1 }
        (Function.update index key (some reg.used))

/-- **Everything the search can do.** -/
theorem indexForKey_cases (ok : IndexOk reg index) (key : Bytes) :
    ∃ found after index', indexForKey reg key true = some (found, after) ∧
      IndexResult reg index key found after index' ∧ IndexOk after index' := by
  unfold indexForKey
  rw [lookupIndex_eq ok, Option.bind_some]
  cases found : index key with
  | some i => exact ⟨some i, reg, index, rfl, .found i found, ok⟩
  | none =>
    by_cases full : reg.used ≥ reg.max
    · simp only [Bool.true_eq_false, if_false, if_pos full]
      exact ⟨none, reg, index, rfl, .full found full, ok⟩
    · have free : reg.used < reg.max := not_le.mp full
      simp only [Bool.true_eq_false, if_false, if_neg full]
      by_cases refused : Refused reg.keys key (decimal reg.used)
      · rw [storeIndex, zedisHtSet_refused refused]
        exact ⟨none, _, index, rfl, .burned found free refused, ok.burn free⟩
      · obtain ⟨keys, stored, -, ordered, represents⟩ :=
          zedisHtSet_represents ok.ordered ok.represents refused
        rw [storeIndex, stored]
        exact ⟨some reg.used, _, _, rfl, .assigned keys found free refused,
          ok.assign free ordered represents⟩

/-- The index that was found is the one of the key, and no other key gets one. -/
theorem IndexResult.assigns {after : KeyIndex} {index' : Bytes → Option Nat} {key : Bytes}
    {found : Option Nat} (result : IndexResult reg index key found after index') :
    found = index' key ∧ Assigns key index index' := by
  cases result with
  | found i has => exact ⟨has.symm, .refl key index⟩
  | full none _ => exact ⟨none.symm, .refl key index⟩
  | burned none _ _ => exact ⟨none.symm, .refl key index⟩
  | assigned keys none free stored =>
    refine ⟨by rw [Function.update_self], ?_, ?_⟩
    · intro other i has
      by_cases same : other = key
      · rw [same, none] at has
        cases has
      · rw [Function.update_of_ne same, has]
    · intro other differs
      exact Function.update_of_ne differs _ _

/-- **The index for a request.** -/
theorem indexForKey_spec (ok : IndexOk reg index) (key : Bytes) :
    ∃ after index', indexForKey reg key true = some (index' key, after) ∧ IndexOk after index' ∧
      Assigns key index index' := by
  obtain ⟨found, after, index', search, result, ok'⟩ := indexForKey_cases ok key
  obtain ⟨same, assigns⟩ := result.assigns
  exact ⟨after, index', by rw [search, same], ok', assigns⟩

end Assignment

/-! ### The start -/

theorem IndexOk.fresh {arena arena' : ZedisArena} {max : UInt32} {keys : ZedisHashTable}
    (made : zedisHtInit arena (max * 2).toNat = some (keys, arena')) :
    IndexOk ⟨keys, max.toNat, 0⟩ fun _ => none := by
  obtain ⟨positive, rfl⟩ := zedisHtInit_eq made
  refine ⟨init_ordered positive (max * 2).toNat_lt.le, fun key value => ?_, nofun, nofun,
    Nat.zero_le _, max.toNat_lt⟩
  refine ⟨nofun, fun ⟨slot, _, occupied, _⟩ => ?_⟩
  cases occupied

end Zedis.Registry

/-
**Loops over a memory that may not answer.**

A read of a partial memory is a fault where the memory has no cell, and a loop that makes such a read
has no result (`none`). Where the memory answers below a limit with the cells of a total one
(`Answers`), a loop that stays below it has the result of the total function.

* `scan`: the first address that passes a test, `scan_eq`;
* `skipReads`: the first address whose cell fails a test, `skipReads_eq`;
* `foldReads`: a fold that may give up, `foldReads_eq`;
* `readAll`: the cells of a stretch, `readAll_eq`.
-/

import Zedis.Lib.Memory

namespace Zedis.Lib

variable {α β : Type}

/-- The reads below `limit` are answered, with the cells of `mem`. -/
def Answers (read : Nat → Option α) (mem : Nat → α) (limit : Nat) : Prop :=
  ∀ i < limit, read i = some (mem i)

/-- `for (; n > 0; i++, n--) if (test(i)) return i;`. -/
def scan (test : Nat → Option Bool) : Nat → Nat → Option (Option Nat)
  | 0, _ => some none
  | n + 1, i => (test i).bind fun hit => if hit then some (some i) else scan test n (i + 1)

theorem scan_eq {test : Nat → Option Bool} {pass : Nat → Bool} : ∀ {n start : Nat},
    (∀ i, start ≤ i → i < start + n → test i = some (pass i)) →
    scan test n start = some ((List.range' start n).find? pass) := by
  intro n
  induction n with
  | zero => exact fun _ => rfl
  | succ n ih =>
    intro start tests
    rw [scan, tests start (Nat.le_refl _) (by omega), Option.bind_some, List.range'_succ,
      List.find?_cons]
    cases pass start with
    | true => rfl
    | false => exact ih fun i low high => tests i (by omega) (by omega)

section Reads

variable (read : Nat → Option α)

/-- `while (n > 0 && test(read(i))) i++, n--;`. -/
def skipReads (test : α → Bool) : Nat → Nat → Option Nat
  | 0, i => some i
  | n + 1, i => (read i).bind fun cell => if test cell then skipReads test n (i + 1) else some i

/-- `for (; n > 0; i++, n--) value = step(value, read(i));`, unless a step gives up. -/
def foldReads (step : β → α → Option β) : Nat → Nat → β → Option (Option β)
  | 0, _, value => some (some value)
  | n + 1, i, value => (read i).bind fun cell =>
      match step value cell with
      | none => some none
      | some value => foldReads step n (i + 1) value

/-- The cells from `start` on, `n` of them. -/
def readAll (start n : Nat) : Option (List α) := (List.range' start n).mapM read

variable {read} {mem : Nat → α} {limit : Nat}

theorem skipReads_eq (answers : Answers read mem limit) (test : α → Bool) : ∀ {n i : Nat},
    i + n ≤ limit → skipReads read test n i = some (i + ((segment mem i n).takeWhile test).length) := by
  intro n
  induction n with
  | zero => exact fun _ => rfl
  | succ n ih =>
    intro i inside
    rw [skipReads, answers i (by omega), Option.bind_some, segment_succ]
    cases passes : test (mem i) with
    | true =>
      rw [if_pos rfl, ih (by omega), List.takeWhile_cons_of_pos passes, List.length_cons, Nat.add_assoc,
        Nat.add_comm 1]
    | false =>
      rw [if_neg Bool.false_ne_true, List.takeWhile_cons_of_neg (by rw [passes]; exact Bool.false_ne_true)]
      rfl

theorem foldReads_eq (answers : Answers read mem limit) (step : β → α → Option β) : ∀ {n i : Nat}
    (value : β), i + n ≤ limit →
      foldReads read step n i value = some ((segment mem i n).foldlM step value) := by
  intro n
  induction n with
  | zero => exact fun _ _ => rfl
  | succ n ih =>
    intro i value inside
    rw [foldReads, answers i (by omega), Option.bind_some, segment_succ, List.foldlM_cons]
    cases step value (mem i) with
    | none => rfl
    | some value => exact ih value (by omega)

theorem readAll_eq (answers : Answers read mem limit) : ∀ {n start : Nat}, start + n ≤ limit →
    readAll read start n = some (segment mem start n) := by
  intro n
  induction n with
  | zero => exact fun _ => rfl
  | succ n ih =>
    intro start inside
    have later := ih (show start + 1 + n ≤ limit by omega)
    rw [readAll] at later
    rw [readAll, List.range'_succ, List.mapM_cons, answers start (by omega), later, segment_succ]
    rfl

end Reads

end Zedis.Lib

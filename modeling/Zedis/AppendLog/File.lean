/-
**The file behind the log (`src/append_log.c`, `zedis_aol_init` and `zedis_aol_destroy`).**

With a path the mapped region is a shared mapping of the file of that name, cut or filled with zeros to
the capacity; without one it is anonymous memory. The operating system keeps the bytes of a shared
mapping in the file, so what `zedis_aol_destroy` unmaps is what the next `zedis_aol_init` of the same
path maps. `write_pos` is in memory only.
-/

import Zedis.AppendLog.Model
import Mathlib.Logic.Function.Basic

namespace Zedis.AppendLog

open Zedis.Lib

/-- A file: its length and its bytes. -/
structure File where
  size : Nat
  bytes : Nat → UInt8

/-- The files by name; a name without a file has an empty one, which `O_CREAT` creates. -/
abbrev Disk := Bytes → File

/-- What `open` and `mmap` answer: whether they succeed. -/
structure Mapping where
  opened : Bool
  mapped : Bool
deriving DecidableEq, Repr

/-- `ftruncate(fd, (off_t)capacity)`: a capacity from `2^63` on is a negative `off_t`, which it
refuses. -/
def ftruncate (file : File) (capacity : Nat) : Option File :=
  if capacity < 2 ^ 63 then some ⟨capacity, fun i => if i < file.size then file.bytes i else 0⟩
  else none

/-- The name of the file that is opened: `path != NULL && path[0] != '\0'`. -/
def logFile (path : Option Bytes) : Option Bytes := path.filter fun name => !(cstr name).isEmpty

/-- `zedis_aol_init` with its path: the log and the files it leaves. -/
def zedisAolOpen (os : Mapping) (disk : Disk) (path : Option Bytes) (capacity : Nat) :
    Option (ZedisAppendLog × Disk) :=
  match logFile path with
  | some name =>
    if os.opened = false then none
    else
      (ftruncate (disk name) capacity).bind fun file =>
        (zedisAolInit (if os.mapped then some file.bytes else none) capacity).map fun log =>
          (log, Function.update disk name file)
  | none =>
    (zedisAolInit (if os.mapped then some fun _ => 0 else none) capacity).map fun log => (log, disk)

/-- `zedis_aol_destroy`: the files it leaves. -/
def zedisAolDestroy (disk : Disk) (path : Option Bytes) (log : ZedisAppendLog) : Disk :=
  match logFile path with
  | some name => Function.update disk name ⟨log.capacity, log.base⟩
  | none => disk

section Open

variable {os : Mapping} {disk disk' : Disk} {path : Option Bytes} {name : Bytes} {capacity : Nat}
  {log reopened : ZedisAppendLog}

theorem zedisAolInit_start {mapped : Option (Nat → UInt8)}
    (made : zedisAolInit mapped capacity = some log) :
    log.capacity = capacity ∧ log.writePos = 0 ∧ 4096 ≤ capacity := by
  unfold zedisAolInit at made
  split at made
  · cases made
  · rename_i large
    obtain ⟨base, -, rfl⟩ := Option.map_eq_some_iff.mp made
    exact ⟨rfl, rfl, Nat.le_of_not_lt large⟩

/-- A log that was opened starts at position 0. -/
theorem zedisAolOpen_start (opened : zedisAolOpen os disk path capacity = some (log, disk')) :
    log.capacity = capacity ∧ log.writePos = 0 ∧ 4096 ≤ capacity := by
  unfold zedisAolOpen at opened
  split at opened
  · split at opened
    · cases opened
    · obtain ⟨file, -, opened⟩ := Option.bind_eq_some_iff.mp opened
      obtain ⟨log, made, same⟩ := Option.map_eq_some_iff.mp opened
      cases same
      exact zedisAolInit_start made
  · obtain ⟨log, made, same⟩ := Option.map_eq_some_iff.mp opened
    cases same
    exact zedisAolInit_start made

/-- The capacity of a file is an `off_t`. -/
theorem zedisAolOpen_capacity (isFile : logFile path = some name)
    (opened : zedisAolOpen os disk path capacity = some (log, disk')) : capacity < 2 ^ 63 := by
  unfold zedisAolOpen at opened
  rw [isFile] at opened
  dsimp only at opened
  split at opened
  · cases opened
  · obtain ⟨file, cut, -⟩ := Option.bind_eq_some_iff.mp opened
    unfold ftruncate at cut
    split at cut
    · assumption
    · cases cut

/-- **The bytes of the log are those that were there at `zedis_aol_destroy`.** -/
theorem zedisAolOpen_destroy (isFile : logFile path = some name)
    (opened : zedisAolOpen os (zedisAolDestroy disk path log) path log.capacity =
      some (reopened, disk')) : ∀ i < log.capacity, reopened.base i = log.base i := by
  have small := zedisAolOpen_capacity isFile opened
  unfold zedisAolOpen zedisAolDestroy at opened
  rw [isFile] at opened
  dsimp only at opened
  rw [Function.update_self, ftruncate, if_pos small] at opened
  split at opened
  · cases opened
  · obtain ⟨reopened, made, same⟩ := Option.map_eq_some_iff.mp opened
    cases same
    unfold zedisAolInit at made
    split at made
    · cases made
    · obtain ⟨base, mapped, rfl⟩ := Option.map_eq_some_iff.mp made
      split at mapped
      · cases mapped
        exact fun i inside => if_pos inside
      · cases mapped

end Open

end Zedis.AppendLog

/-
**Restarts.**

A restart unmaps the log, maps the same file again and initialises the list registry anew. The records
are still in the file (`zedisAolOpen_destroy`), but `write_pos` starts at 0, no key has a list, and
nothing reads the records: `restart_survives_iff` says that the lists survive exactly when there were
none.
-/

import Zedis.AppendLog.File
import Zedis.Registry.Isolation

namespace Zedis.Registry

open Zedis.Lib Zedis.Arena Zedis.HashTable Zedis.AppendLog Zedis.Reply

/-- Fresh registries over a log with this path. -/
def FreshAt (path : Option Bytes) (s : Registries) : Prop :=
  ∃ os disk disk' capacity zarena zarena' larena larena' maxZsets maxMembers maxLists,
    zedisAolOpen os disk path capacity = some (s.log, disk') ∧
      zedisZsetRegInit zarena maxZsets maxMembers = some (s.zsets, zarena') ∧
        zedisListRegInit larena maxLists = some (s.lists, larena')

/-- `zedis_aol_destroy`, then `zedis_aol_init` with the same path and capacity and
`zedis_list_reg_init`. -/
def restart (os : Mapping) (disk : Disk) (path : Option Bytes) (arena : ZedisArena)
    (maxLists : UInt32) (s : Registries) : Option Registries :=
  (zedisAolOpen os (zedisAolDestroy disk path s.log) path s.log.capacity).bind fun (log, _) =>
    (zedisListRegInit arena maxLists).map fun (lists, _) => { s with lists := lists, log := log }

/-- Every key reads as before, and no later request changes a byte of the records. -/
structure SurvivesRestart (s after : Registries) : Prop where
  llen : ∀ key, zedisListRegLlen after.lists key = zedisListRegLlen s.lists key
  lrange : ∀ key start stop replyCap,
    zedisListRegLrange after.lists after.log key start stop replyCap =
      zedisListRegLrange s.lists s.log key start stop replyCap
  records : ∀ ops later, Run regStep Always after ops later →
    ∀ i < s.log.writePos, later.log.base i = s.log.base i

/-! ### Before the restart -/

section Before

variable {s next : Registries} {op : RegRequest}

/-- The log is below its capacity; while nothing has been written, every list is empty. -/
structure LogInv (s : Registries) : Prop where
  indexed : Indexed s
  capacity : s.log.capacity < 2 ^ 63
  inside : s.log.writePos ≤ s.log.capacity
  empty : s.log.writePos = 0 → ∀ i, s.lists.lists i = emptyList
  record : s.log.writePos ≠ 0 → 10 ≤ s.log.writePos

theorem FreshAt.logInv {path : Option Bytes} {name : Bytes} (isFile : logFile path = some name)
    (fresh : FreshAt path s) : LogInv s := by
  obtain ⟨_, _, _, _, _, _, _, _, _, _, _, opened, zmade, lmade⟩ := fresh
  obtain ⟨capacity, start, -⟩ := zedisAolOpen_start opened
  obtain ⟨lindex, lists⟩ := zedisListRegInit_spec lmade
  exact
    { indexed := ⟨_, _, zedisZsetRegInit_spec zmade, lindex⟩
      capacity := capacity ▸ zedisAolOpen_capacity isFile opened
      inside := start ▸ Nat.zero_le _
      empty := fun _ i => congrFun lists i
      record := fun written => absurd start written }

theorem LogInv.step (inv : LogInv s) (taken : regStep s op = some next) : LogInv next := by
  have indexed := inv.indexed.step taken
  obtain ⟨zindex, lindex, zok, lok⟩ := inv.indexed
  obtain ⟨_, _, -, -, -, -, -, pushes⟩ := regStep_spec zok lok taken
  rcases pushes with ⟨lists, log⟩ | ⟨key, val, i, -, -, accepted, -, log⟩
  · refine ⟨indexed, log ▸ inv.capacity, log ▸ inv.inside, ?_, log ▸ inv.record⟩
    rw [log, lists]
    exact inv.empty
  · have position : next.log.writePos = s.log.writePos + recordSize key.length val.length := by
      rw [log]
      exact pushedLog_writePos _ accepted (inv.inside.trans_lt inv.capacity)
    have room : next.log.writePos ≤ next.log.capacity := by
      rw [log]
      exact accepted.room
    have large : 10 ≤ next.log.writePos := by
      have key_pos := accepted.keyPos
      have val_pos := accepted.valPos
      rw [position]
      unfold recordSize aolHdrSize
      omega
    refine ⟨indexed, ?_, room, fun zero => ?_, fun _ => large⟩
    · rw [log]
      exact inv.capacity
    · omega

theorem FreshAt.logInv_run {path : Option Bytes} {name : Bytes} {start : Registries}
    {ops : List RegRequest} (isFile : logFile path = some name) (fresh : FreshAt path start)
    (run : Run regStep Always start ops s) : LogInv s :=
  run.invariant LogInv (fun _ _ _ inv _ taken => inv.step taken) (fresh.logInv isFile)

end Before

/-! ### Empty lists, and the first push -/

section Empty

variable {s : Registries} {lindex : Bytes → Option Nat}

/-- What the reads of empty lists answer. -/
theorem reads_of_empty (lok : IndexOk s.lists.toKeyIndex lindex)
    (empty : ∀ i, s.lists.lists i = emptyList) (key : Bytes) :
    zedisListRegLlen s.lists key = some 0 ∧ ∀ start stop replyCap,
      zedisListRegLrange s.lists s.log key start stop replyCap =
        some (formatted (arrayHeader 0) replyCap) := by
  unfold zedisListRegLlen zedisListRegLrange
  rw [lookupIndex_eq lok]
  cases lindex key with
  | none => exact ⟨rfl, fun _ _ _ => rfl⟩
  | some i =>
    simp only [Option.map_some, empty i]
    exact ⟨rfl, fun _ _ _ => rfl⟩

/-- A fresh registry has room for a key. -/
theorem zedisListRegInit_free {arena arena' : ZedisArena} {maxLists : UInt32}
    {reg : ZedisListRegistry} (made : zedisListRegInit arena maxLists = some (reg, arena')) :
    reg.used < reg.max ∧ ∀ key : Bytes, key.length ≤ zedisHtMaxKey →
      ¬ Refused reg.keys key (decimal reg.used) := by
  unfold zedisListRegInit at made
  split at made
  · cases made
  · rename_i positive
    obtain ⟨⟨_, granted⟩, -, made⟩ := Option.bind_eq_some_iff.mp made
    obtain ⟨⟨keys, arena⟩, made, same⟩ := Option.map_eq_some_iff.mp made
    cases same
    obtain ⟨slots, rfl⟩ := zedisHtInit_eq made
    refine ⟨Nat.pos_of_ne_zero fun zero => positive (UInt32.toNat_inj.mp zero), ?_⟩
    rintro key short ((long | long) | full)
    · exact absurd short (Nat.not_le.mpr long)
    · exact absurd long (show ¬ (decimal 0).length > zedisHtMaxValue by decide)
    · dsimp only at full slots
      omega

/-- The first push of a fresh registry is accepted, and written at position 0. -/
theorem first_lpush {arena arena' : ZedisArena} {maxLists : UInt32} {reg : ZedisListRegistry}
    (made : zedisListRegInit arena maxLists = some (reg, arena')) {log : ZedisAppendLog}
    (start : log.writePos = 0) (large : 4096 ≤ log.capacity) (k v : UInt8) :
    ∃ after, zedisListRegLpush reg log [k] [v] = some (0, after, pushedLog log emptyList [k] [v]) := by
  obtain ⟨lok, lists⟩ := zedisListRegInit_spec made
  obtain ⟨free, stored⟩ := zedisListRegInit_free made
  have accepted : Accepted log [k] [v] := by
    refine ⟨Nat.one_pos, ?_, Nat.one_pos, ?_, ?_⟩
    · exact show 1 ≤ zedisAolMaxKey by decide
    · exact show 1 ≤ zedisAolMaxElem by decide
    rw [start]
    exact (show (0 + recordSize 1 1) % sizeMod ≤ 4096 by decide).trans large
  obtain ⟨found, fields, index', rc, after, log', pushed, result, -, -, ends⟩ :=
    zedisListRegLpush_cases lok log [k] [v]
  rcases ends with ⟨-, -, -, none | refused⟩ | ⟨i, zero, -, -, -, same⟩
  · -- Without an index the registry would be full or its table would refuse the key.
    subst none
    cases result with
    | full _ used => exact absurd used (Nat.not_le.mpr free)
    | burned _ _ refused => exact absurd refused (stored [k] (show 1 ≤ zedisHtMaxKey by decide))
  · exact absurd accepted refused
  · rw [zero, same, lists] at pushed
    exact ⟨after, pushed⟩

theorem pushedLog_nine {log : ZedisAppendLog} (start : log.writePos = 0) (list : ListMeta)
    (k v : UInt8) : (pushedLog log list [k] [v]).base 9 = v := by
  have value := writeRecord_val log.base log.writePos list.headOff [k] [v]
  rw [start] at value
  change writeRecord log.base log.writePos list.headOff [k] [v] 9 = v
  rw [start]
  exact List.head_eq_of_cons_eq value

end Empty

/-- **The lists survive a restart exactly when nothing had been pushed**, for every path of a file and
every state that requests reach: with `write_pos` above 0, the first push after the restart overwrites
the oldest record. -/
theorem restart_survives_iff {path : Option Bytes} {name : Bytes} (isFile : logFile path = some name)
    {start s after : Registries} {ops : List RegRequest} (fresh : FreshAt path start)
    (run : Run regStep Always start ops s) {os : Mapping} {disk : Disk} {arena : ZedisArena}
    {maxLists : UInt32} (restarted : restart os disk path arena maxLists s = some after) :
    SurvivesRestart s after ↔ s.log.writePos = 0 := by
  have inv := fresh.logInv_run isFile run
  obtain ⟨⟨log, disk'⟩, opened, restarted⟩ := Option.bind_eq_some_iff.mp restarted
  obtain ⟨⟨lists, arena'⟩, made, same⟩ := Option.map_eq_some_iff.mp restarted
  subst same
  obtain ⟨capacity, position, large⟩ := zedisAolOpen_start opened
  obtain ⟨lok, empty⟩ := zedisListRegInit_spec made
  constructor
  · intro survives
    by_contra pushed
    -- A value that differs from the byte at which the first record has its own.
    have differs : s.log.base 9 + 1 ≠ s.log.base 9 := by simp
    obtain ⟨later, push⟩ := first_lpush made position (capacity ▸ large) 107 (s.log.base 9 + 1)
    have taken : regStep { s with lists := lists, log := log } (.lpush [107] [s.log.base 9 + 1]) =
        some { s with
          lists := later, log := pushedLog log emptyList [107] [s.log.base 9 + 1] } := by
      rw [regStep, push]
      rfl
    have kept := survives.records _ _ (.cons trivial taken (.nil _)) 9
      (Nat.lt_of_lt_of_le (by decide) (inv.record pushed))
    exact differs ((pushedLog_nine position emptyList 107 (s.log.base 9 + 1)).symm.trans kept)
  · intro zero
    obtain ⟨_, lindex, -, lok'⟩ := inv.indexed
    have before := reads_of_empty lok' (inv.empty zero)
    have afterwards := reads_of_empty (s := { s with lists := lists, log := log }) lok
      (congrFun empty)
    refine ⟨fun key => ?_, fun key start stop replyCap => ?_, fun _ _ _ i below => ?_⟩
    · exact (afterwards key).1.trans (before key).1.symm
    · exact ((afterwards key).2 start stop replyCap).trans ((before key).2 start stop replyCap).symm
    · rw [zero] at below
      exact absurd below (Nat.not_lt_zero i)

section Sample

/-- The calls of a restart, with a log file that is empty at first and a request in between. -/
def sampleRestart (op : RegRequest) : Option (Registries × Registries × Registries) :=
  (zedisAolOpen ⟨true, true⟩ (fun _ => ⟨0, fun _ => 0⟩) (some [108]) 4096).bind fun (log, _) =>
    (zedisZsetRegInit ⟨2 ^ 20, 0⟩ 1 1).bind fun (zsets, _) =>
      (zedisListRegInit ⟨2 ^ 20, 0⟩ 2).bind fun (lists, _) =>
        (regStep ⟨zsets, lists, log⟩ op).bind fun s =>
          (restart ⟨true, true⟩ (fun _ => ⟨0, fun _ => 0⟩) (some [108]) ⟨2 ^ 20, 0⟩ 2 s).map
            fun after => (⟨zsets, lists, log⟩, s, after)

theorem sampleRestart_run {op : RegRequest} {start s after : Registries}
    (made : sampleRestart op = some (start, s, after)) : FreshAt (some [108]) start ∧
      Run regStep Always start [op] s ∧
      restart ⟨true, true⟩ (fun _ => ⟨0, fun _ => 0⟩) (some [108]) ⟨2 ^ 20, 0⟩ 2 s = some after := by
  obtain ⟨⟨log, disk⟩, opened, made⟩ := Option.bind_eq_some_iff.mp made
  obtain ⟨⟨zsets, zarena⟩, zmade, made⟩ := Option.bind_eq_some_iff.mp made
  obtain ⟨⟨lists, larena⟩, lmade, made⟩ := Option.bind_eq_some_iff.mp made
  obtain ⟨next, taken, made⟩ := Option.bind_eq_some_iff.mp made
  obtain ⟨last, restarted, same⟩ := Option.map_eq_some_iff.mp made
  cases same
  exact ⟨⟨_, _, _, _, _, _, _, _, _, _, _, opened, zmade, lmade⟩, .cons trivial taken (.nil _),
    restarted⟩

/-- A score, and no list. -/
theorem restart_survives_iff_zadd : ∃ start s after,
    sampleRestart (.add [122] 1 [109]) = some (start, s, after) ∧ s.log.writePos = 0 ∧
      SurvivesRestart s after := by
  have run : (sampleRestart (.add [122] 1 [109])).map (fun found => found.2.1.log.writePos) =
      some 0 := by decide +kernel
  obtain ⟨⟨start, s, after⟩, made, zero⟩ := Option.map_eq_some_iff.mp run
  obtain ⟨fresh, taken, restarted⟩ := sampleRestart_run made
  have isFile : logFile (some [108]) = some [108] := by decide
  exact ⟨start, s, after, made, zero, (restart_survives_iff isFile fresh taken restarted).mpr zero⟩

/-- **A list of one element is gone after a restart**, and its record is overwritten by the next
push. -/
theorem restart_forgets_list : ∃ start s after next,
    FreshAt (some [108]) start ∧ Run regStep Always start [.lpush [107] [118]] s ∧
      restart ⟨true, true⟩ (fun _ => ⟨0, fun _ => 0⟩) (some [108]) ⟨2 ^ 20, 0⟩ 2 s = some after ∧
      zedisListRegLlen s.lists [107] = some 1 ∧ zedisListRegLlen after.lists [107] = some 0 ∧
      regStep after (.lpush [107] [119]) = some next ∧
      (s.log.writePos, s.log.base 9, after.log.base 9, next.log.base 9) = (10, 118, 118, 119) ∧
      ¬ SurvivesRestart s after := by
  have run : ((sampleRestart (.lpush [107] [118])).bind fun (_, s, after) =>
      (regStep after (.lpush [107] [119])).map fun next =>
        (zedisListRegLlen s.lists [107], zedisListRegLlen after.lists [107],
          s.log.writePos, s.log.base 9, after.log.base 9, next.log.base 9)) =
      some (some 1, some 0, 10, 118, 118, 119) := by decide +kernel
  obtain ⟨⟨start, s, after⟩, made, run⟩ := Option.bind_eq_some_iff.mp run
  obtain ⟨next, pushed, read⟩ := Option.map_eq_some_iff.mp run
  obtain ⟨fresh, taken, restarted⟩ := sampleRestart_run made
  obtain ⟨before, read⟩ := Prod.mk.inj read
  obtain ⟨afterwards, bytes⟩ := Prod.mk.inj read
  refine ⟨start, s, after, next, fresh, taken, restarted, before, afterwards, pushed, bytes,
    fun survives => ?_⟩
  have same := survives.llen [107]
  rw [before, afterwards] at same
  cases same

end Sample

end Zedis.Registry

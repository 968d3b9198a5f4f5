/-
**The chains of lists that share a log.**

`Visits log cur records`: following `prev_off` from `cur` visits exactly these records, newest first,
each inside the written part of the log and with its value, and then `ZEDIS_AOL_NO_PREV`. A push writes
at `write_pos` and above, so it keeps every chain (`Visits.frame`); it puts its own record in front of
the chain of its list, as long as `write_pos` is below `ZEDIS_AOL_NO_PREV` (`Visits.push`). In a log of
less than `2 ^ 32` bytes that is always so (`shared_lists`).
-/

import Zedis.AppendLog.Model
import Zedis.Lib.Run

namespace Zedis.AppendLog

open Zedis.Lib Zedis.Arena

/-- The end of the record at an offset. -/
def recordEnd (log : ZedisAppendLog) (off : Nat) : Nat :=
  off + recordSize (hdrKeyLen log off) (hdrValLen log off)

/-- **The chain from `cur`**: the records with their values, and then no more. -/
def Visits (log : ZedisAppendLog) : Nat → List (Nat × Bytes) → Prop
  | cur, [] => cur = zedisAolNoPrev
  | cur, record :: records => cur = record.1 ∧ cur ≠ zedisAolNoPrev ∧ valAt log cur = record.2 ∧
      recordEnd log cur ≤ log.writePos ∧ Visits log (hdrPrevOff log cur) records

/-- A list whose accepted pushes wrote the records. -/
structure ListOk (log : ZedisAppendLog) (list : ListMeta) (records : List (Nat × Bytes)) : Prop where
  visits : Visits log list.headOff records
  count : list.count = records.length
  tail : list.tailOff = (records.getLast?.map Prod.fst).getD zedisAolNoPrev
  small : records.length * 10 ≤ log.writePos

/-- The records of the accepted pushes of each list, newest first: where it was written, its value. -/
abbrev Written : Type := Nat → List (Nat × Bytes)

/-- A push, and the records after it. -/
def loggedPush (state : SharedLog × Written) (op : Push) : Option (SharedLog × Written) :=
  let (rc, after) := sharedPush state.1 op
  some (after, if rc = 0 then
      Function.update state.2 op.list ((state.1.log.writePos, op.val) :: state.2 op.list)
    else state.2)

/-! ### One record -/

section Record

variable (base : Nat → UInt8) (pos prevOff : Nat) (key val : Bytes)

theorem writeRecord_prevOff (fits : prevOff < offMod) :
    leValue (segment (writeRecord base pos prevOff key val) pos 4) = prevOff := by
  have written := segment_store_self base pos (leBytes 4 prevOff)
  rw [length_leBytes] at written
  simp only [writeRecord, aolHdrSize]
  rw [segment_store_disjoint _ _ _ (Or.inl (by omega)),
    segment_store_disjoint _ _ _ (Or.inl (by omega)),
    segment_store_disjoint _ _ _ (Or.inl (by omega)),
    segment_store_disjoint _ _ _ (Or.inl (by omega)), written]
  exact leValue_leBytes 4 prevOff fits

theorem writeRecord_keyLen (fits : key.length ≤ zedisAolMaxKey) :
    leValue (segment (writeRecord base pos prevOff key val) (pos + 4) 2) = key.length := by
  have written := segment_store_self (store base pos (leBytes 4 prevOff)) (pos + 4)
    (leBytes 2 key.length)
  rw [length_leBytes] at written
  simp only [writeRecord, aolHdrSize]
  rw [segment_store_disjoint _ _ _ (Or.inl (by omega)),
    segment_store_disjoint _ _ _ (Or.inl (by omega)),
    segment_store_disjoint _ _ _ (Or.inl (by omega)), written]
  exact leValue_leBytes 2 key.length (lt_of_le_of_lt fits (by decide))

theorem writeRecord_valLen (fits : val.length ≤ zedisAolMaxElem) :
    leValue (segment (writeRecord base pos prevOff key val) (pos + 6) 2) = val.length := by
  have written := segment_store_self (store (store base pos (leBytes 4 prevOff)) (pos + 4)
    (leBytes 2 key.length)) (pos + 6) (leBytes 2 val.length)
  rw [length_leBytes] at written
  simp only [writeRecord, aolHdrSize]
  rw [segment_store_disjoint _ _ _ (Or.inl (by omega)),
    segment_store_disjoint _ _ _ (Or.inl (by omega)), written]
  exact leValue_leBytes 2 val.length (lt_of_le_of_lt fits (by decide))

theorem writeRecord_val : segment (writeRecord base pos prevOff key val)
    (pos + aolHdrSize + key.length) val.length = val :=
  segment_store_self _ _ val

/-- A record is written at its offset and above. -/
theorem writeRecord_below {i : Nat} (below : i < pos) :
    writeRecord base pos prevOff key val i = base i := by
  simp only [writeRecord, aolHdrSize]
  rw [store_outside _ _ _ (Or.inl (by omega)), store_outside _ _ _ (Or.inl (by omega)),
    store_outside _ _ _ (Or.inl (by omega)), store_outside _ _ _ (Or.inl (by omega)),
    store_outside _ _ _ (Or.inl below)]

/-- Nor does it reach beyond its size. -/
theorem writeRecord_above {i : Nat} (above : pos + recordSize key.length val.length ≤ i) :
    writeRecord base pos prevOff key val i = base i := by
  unfold recordSize aolHdrSize at above
  simp only [writeRecord, aolHdrSize]
  rw [store_outside _ _ _ (Or.inr (by omega)), store_outside _ _ _ (Or.inr (by omega)),
    store_outside _ _ _ (Or.inr (by rw [length_leBytes]; omega)),
    store_outside _ _ _ (Or.inr (by rw [length_leBytes]; omega)),
    store_outside _ _ _ (Or.inr (by rw [length_leBytes]; omega))]

end Record

/-! ### One push -/

section Push

variable {log : ZedisAppendLog} {list : ListMeta} {key val : Bytes} {records : List (Nat × Bytes)}

/-- A push that is not refused. -/
structure Accepted (log : ZedisAppendLog) (key val : Bytes) : Prop where
  keyPos : 0 < key.length
  keyFits : key.length ≤ zedisAolMaxKey
  valPos : 0 < val.length
  valFits : val.length ≤ zedisAolMaxElem
  room : (log.writePos + recordSize key.length val.length) % sizeMod ≤ log.capacity

instance (log : ZedisAppendLog) (key val : Bytes) : Decidable (Accepted log key val) :=
  decidable_of_iff (0 < key.length ∧ key.length ≤ zedisAolMaxKey ∧ 0 < val.length ∧
      val.length ≤ zedisAolMaxElem ∧
      (log.writePos + recordSize key.length val.length) % sizeMod ≤ log.capacity)
    ⟨fun ⟨keyPos, keyFits, valPos, valFits, room⟩ => ⟨keyPos, keyFits, valPos, valFits, room⟩,
      fun accepted => ⟨accepted.keyPos, accepted.keyFits, accepted.valPos, accepted.valFits,
        accepted.room⟩⟩

/-- The log after an accepted push. -/
def pushedLog (log : ZedisAppendLog) (list : ListMeta) (key val : Bytes) : ZedisAppendLog :=
  { log with
    base := writeRecord log.base log.writePos list.headOff key val
    writePos := (log.writePos + recordSize key.length val.length) % sizeMod }

/-- The list after an accepted push. -/
def pushedList (log : ZedisAppendLog) (list : ListMeta) : ListMeta where
  headOff := log.writePos % offMod
  tailOff := if list.headOff = zedisAolNoPrev then log.writePos % offMod else list.tailOff
  count := (list.count + 1) % offMod

/-- **Everything a push can do.** -/
theorem zedisAolLpush_cases (log : ZedisAppendLog) (list : ListMeta) (key val : Bytes) :
    (¬ Accepted log key val ∧ zedisAolLpush log list key val = (-1, log, list)) ∨
      Accepted log key val ∧
        zedisAolLpush log list key val = (0, pushedLog log list key val, pushedList log list) := by
  unfold zedisAolLpush
  by_cases lengths : key.length = 0 ∨ key.length > zedisAolMaxKey ∨ val.length = 0 ∨
      val.length > zedisAolMaxElem
  · refine Or.inl ⟨fun accepted => ?_, if_pos lengths⟩
    have := accepted.keyPos
    have := accepted.keyFits
    have := accepted.valPos
    have := accepted.valFits
    omega
  · rw [if_neg lengths]
    by_cases full : (log.writePos + recordSize key.length val.length) % sizeMod > log.capacity
    · exact Or.inl ⟨fun accepted => absurd accepted.room full.not_ge, if_pos full⟩
    · refine Or.inr ⟨⟨?_, ?_, ?_, ?_, not_lt.mp full⟩, if_neg full⟩
      · omega
      · omega
      · omega
      · omega

theorem foldlM_congr {α β : Type} {f g : β → α → Option β} {l : List α}
    (same : ∀ acc, ∀ a ∈ l, f acc a = g acc a) (acc : β) : l.foldlM f acc = l.foldlM g acc := by
  induction l generalizing acc with
  | nil => rfl
  | cons a l ih =>
    rw [List.foldlM_cons, List.foldlM_cons, same acc a List.mem_cons_self]
    exact congrArg _ (funext fun acc =>
      ih (fun acc a member => same acc a (List.mem_cons_of_mem _ member)) acc)

section Frame

variable {after : ZedisAppendLog} (same : ∀ i < log.writePos, after.base i = log.base i)
include same

/-- A record does not see what is written above it. -/
theorem record_frame {off : Nat} (inside : recordEnd log off ≤ log.writePos) :
    recordEnd after off = recordEnd log off ∧ hdrPrevOff after off = hdrPrevOff log off ∧
      valAt after off = valAt log off := by
  have reads : ∀ start len, start + len ≤ log.writePos →
      segment after.base start len = segment log.base start len := fun start len fits =>
    segment_congr fun i _ below => same i (by omega)
  unfold recordEnd recordSize aolHdrSize at inside
  have keyLen : hdrKeyLen after off = hdrKeyLen log off := congrArg leValue (reads _ _ (by omega))
  have valLen : hdrValLen after off = hdrValLen log off := congrArg leValue (reads _ _ (by omega))
  refine ⟨?_, congrArg leValue (reads _ _ (by omega)), ?_⟩
  · rw [recordEnd, recordEnd, keyLen, valLen]
  · rw [valAt, valAt, keyLen, valLen]
    exact reads _ _ (by unfold aolHdrSize; omega)

/-- The reads of a chain do not see what is written above it. -/
theorem Visits.frame (grows : log.writePos ≤ after.writePos) :
    ∀ {records cur}, Visits log cur records → Visits after cur records
  | [], _, visits => visits
  | record :: records, cur, visits => by
    obtain ⟨isCur, isRecord, value, inside, rest⟩ := visits
    obtain ⟨recordEnd_eq, prevOff_eq, valAt_eq⟩ := record_frame same inside
    refine ⟨isCur, isRecord, valAt_eq.trans value, ?_, ?_⟩
    · rw [recordEnd_eq]
      exact inside.trans grows
    · rw [prevOff_eq]
      exact Visits.frame grows rest

theorem chainWalk_frame (capacity_eq : after.capacity = log.capacity) :
    ∀ {records cur} (room : Nat), Visits log cur records →
      chainWalk after room cur = chainWalk log room cur ∧
        ∀ off ∈ chainWalk log room cur, valAt after off = valAt log off
  | _, _, 0, _ => ⟨rfl, fun _ member => absurd member List.not_mem_nil⟩
  | [], cur, room + 1, visits => by
    have ended : cur = zedisAolNoPrev := visits
    rw [chainWalk, chainWalk, if_pos ended, if_pos ended]
    exact ⟨rfl, fun _ member => absurd member List.not_mem_nil⟩
  | record :: records, cur, room + 1, visits => by
    obtain ⟨-, isRecord, -, inside, rest⟩ := visits
    obtain ⟨-, prevOff_eq, valAt_eq⟩ := record_frame same inside
    obtain ⟨walk_eq, vals_eq⟩ := chainWalk_frame capacity_eq room rest
    have hdrAt_eq : hdrAt after cur = hdrAt log cur := by rw [hdrAt, hdrAt, capacity_eq]
    rw [chainWalk, chainWalk, if_neg isRecord, if_neg isRecord, hdrAt_eq, prevOff_eq, walk_eq]
    split
    · exact ⟨rfl, fun _ member => absurd member List.not_mem_nil⟩
    · refine ⟨rfl, fun off member => ?_⟩
      rcases List.mem_cons.mp member with rfl | later
      · exact valAt_eq
      · exact vals_eq off later

/-- **A range of a chain does not see what is written above it.** -/
theorem zedisAolLrange_frame (capacity_eq : after.capacity = log.capacity)
    (visits : Visits log list.headOff records) (start stop : Int) (replyCap : Nat) :
    zedisAolLrange after list start stop replyCap = zedisAolLrange log list start stop replyCap := by
  obtain ⟨walk_eq, vals_eq⟩ := chainWalk_frame same capacity_eq 1024 visits
  have prints : ∀ (skipped taken : Nat) (reply : Bytes),
      (((chainWalk log 1024 list.headOff).drop skipped).take taken).foldlM
          (printElement after replyCap) reply =
        (((chainWalk log 1024 list.headOff).drop skipped).take taken).foldlM
          (printElement log replyCap) reply := by
    intro skipped taken reply
    refine foldlM_congr (fun reply off member => ?_) reply
    have walked := List.mem_of_mem_drop (List.mem_of_mem_take member)
    rw [printElement, printElement, vals_eq off walked, hdrAt, hdrAt, capacity_eq]
  simp only [zedisAolLrange, walk_eq, prints]

end Frame

theorem Visits.head_lt {cur : Nat} (visits : Visits log cur records)
    (open32 : log.writePos < zedisAolNoPrev) : cur < offMod := by
  cases records with
  | nil =>
    rw [visits]
    decide
  | cons record records =>
    have inside := visits.2.2.2.1
    unfold recordEnd at inside
    unfold zedisAolNoPrev at open32
    unfold offMod
    omega

theorem pushedLog_writePos (list : ListMeta) (accepted : Accepted log key val)
    (small : log.writePos < 2 ^ 63) :
    (pushedLog log list key val).writePos = log.writePos + recordSize key.length val.length := by
  have keyFits := accepted.keyFits
  have valFits := accepted.valFits
  refine Nat.mod_eq_of_lt ?_
  unfold recordSize aolHdrSize sizeMod
  unfold zedisAolMaxKey at keyFits
  unfold zedisAolMaxElem at valFits
  omega

theorem pushedList_headOff (list : ListMeta) (open32 : log.writePos < zedisAolNoPrev) :
    (pushedList log list).headOff = log.writePos := by
  refine Nat.mod_eq_of_lt ?_
  unfold zedisAolNoPrev at open32
  unfold offMod
  omega

/-- **An accepted push below `ZEDIS_AOL_NO_PREV`** puts its record in front of the chain. -/
theorem Visits.push (visits : Visits log list.headOff records) (accepted : Accepted log key val)
    (open32 : log.writePos < zedisAolNoPrev) :
    Visits (pushedLog log list key val) (pushedList log list).headOff
      ((log.writePos, val) :: records) := by
  have keyLen : hdrKeyLen (pushedLog log list key val) log.writePos = key.length :=
    writeRecord_keyLen _ _ _ _ _ accepted.keyFits
  have valLen : hdrValLen (pushedLog log list key val) log.writePos = val.length :=
    writeRecord_valLen _ _ _ _ _ accepted.valFits
  have prevOff : hdrPrevOff (pushedLog log list key val) log.writePos = list.headOff :=
    writeRecord_prevOff _ _ _ _ _ (visits.head_lt open32)
  have grows := pushedLog_writePos list accepted (open32.trans (by decide))
  rw [pushedList_headOff list open32]
  refine ⟨rfl, open32.ne, ?_, ?_, ?_⟩
  · rw [valAt, keyLen, valLen]
    exact writeRecord_val _ _ _ _ _
  · rw [recordEnd, keyLen, valLen, grows]
  · rw [prevOff]
    refine visits.frame (fun i below => writeRecord_below _ _ _ _ _ below) ?_
    rw [grows]
    exact Nat.le_add_right _ _

theorem ListOk.frame {after : ZedisAppendLog} (ok : ListOk log list records)
    (same : ∀ i < log.writePos, after.base i = log.base i) (grows : log.writePos ≤ after.writePos) :
    ListOk after list records :=
  ⟨ok.visits.frame same grows, ok.count, ok.tail, ok.small.trans grows⟩

/-- **The list that is pushed to.** -/
theorem ListOk.push (ok : ListOk log list records) (accepted : Accepted log key val)
    (open32 : log.writePos < zedisAolNoPrev) :
    ListOk (pushedLog log list key val) (pushedList log list) ((log.writePos, val) :: records) where
  visits := ok.visits.push accepted open32
  count := by
    have small := ok.small
    rw [pushedList, ok.count, List.length_cons]
    refine Nat.mod_eq_of_lt ?_
    unfold zedisAolNoPrev at open32
    unfold offMod
    omega
  tail := by
    have head := pushedList_headOff list open32
    cases records with
    | nil => exact (if_pos ok.visits).trans head
    | cons record records =>
      have tail := ok.tail
      rw [List.getLast?_cons_cons] at *
      exact (if_neg ok.visits.2.1).trans tail
  small := by
    have small := ok.small
    have := accepted.keyPos
    have := accepted.valPos
    rw [pushedLog_writePos list accepted (open32.trans (by decide)), List.length_cons]
    unfold recordSize aolHdrSize
    omega

/-- **All lists of a log, after a push to one of them.** -/
theorem listsOk_push {lists : Nat → ListMeta} {written : Written}
    (ok : ∀ list, ListOk log (lists list) (written list)) (target : Nat)
    (accepted : Accepted log key val) (open32 : log.writePos < zedisAolNoPrev) (list : Nat) :
    ListOk (pushedLog log (lists target) key val)
      (Function.update lists target (pushedList log (lists target)) list)
      (Function.update written target ((log.writePos, val) :: written target) list) := by
  by_cases same : list = target
  · subst same
    rw [Function.update_self, Function.update_self]
    exact (ok list).push accepted open32
  · rw [Function.update_of_ne same, Function.update_of_ne same]
    refine (ok list).frame (fun i below => writeRecord_below _ _ _ _ _ below) ?_
    rw [pushedLog_writePos (lists target) accepted (open32.trans (by decide))]
    exact Nat.le_add_right _ _

end Push

/-! ### Whole runs -/

section Runs

/-- The log keeps its capacity and is written within it, and all lists are in order. -/
structure SharedOk (capacity : Nat) (s : SharedLog) (written : Written) : Prop where
  capacity_eq : s.log.capacity = capacity
  inside : s.log.writePos ≤ capacity
  lists : ∀ list, ListOk s.log (s.lists list) (written list)

variable {capacity : Nat} {s : SharedLog} {written : Written}

/-- In a log of less than `2 ^ 32` bytes no offset is cut. -/
theorem SharedOk.open32 (ok : SharedOk capacity s written) (small : capacity < 2 ^ 32)
    {key val : Bytes} (accepted : Accepted s.log key val) : s.log.writePos < zedisAolNoPrev := by
  have room := accepted.room
  have inside := ok.inside
  have keyPos := accepted.keyPos
  have valPos := accepted.valPos
  have keyFits := accepted.keyFits
  have valFits := accepted.valFits
  rw [ok.capacity_eq] at room
  unfold recordSize aolHdrSize sizeMod at room
  unfold zedisAolMaxKey at keyFits
  unfold zedisAolMaxElem at valFits
  unfold zedisAolNoPrev
  omega

theorem SharedOk.start {mapped : Option (Nat → UInt8)} {log : ZedisAppendLog}
    (made : zedisAolInit mapped capacity = some log) :
    SharedOk capacity ⟨log, fun _ => emptyList⟩ fun _ => [] := by
  obtain ⟨-, made⟩ := Option.ite_none_left_eq_some.mp made
  obtain ⟨base, -, rfl⟩ := Option.map_eq_some_iff.mp made
  exact ⟨rfl, Nat.zero_le _, fun _ => ⟨rfl, rfl, rfl, Nat.zero_le _⟩⟩

/-- The condition on a push: if it is accepted, it is made at a position that `head_off` can hold and
that is not the mark of the end. -/
def PushUncut (state : SharedLog × Written) (op : Push) : Prop :=
  Accepted state.1.log op.key op.val → state.1.log.writePos < zedisAolNoPrev

theorem loggedPush_accepted (s : SharedLog) (written : Written) (op : Push)
    (accepted : Accepted s.log op.key op.val) :
    loggedPush (s, written) op = some
      (⟨pushedLog s.log (s.lists op.list) op.key op.val,
          Function.update s.lists op.list (pushedList s.log (s.lists op.list))⟩,
        Function.update written op.list ((s.log.writePos, op.val) :: written op.list)) := by
  rcases zedisAolLpush_cases s.log (s.lists op.list) op.key op.val with
    ⟨refused, -⟩ | ⟨-, result⟩
  · exact absurd accepted refused
  · simp only [loggedPush, sharedPush, result, if_true]

/-- **One push keeps all lists in order.** -/
theorem loggedPush_ok (ok : SharedOk capacity s written) {op : Push} (uncut : PushUncut (s, written) op)
    {after : SharedLog × Written} (taken : loggedPush (s, written) op = some after) :
    SharedOk capacity after.1 after.2 := by
  by_cases accepted : Accepted s.log op.key op.val
  · rw [loggedPush_accepted s written op accepted] at taken
    cases taken
    refine ⟨ok.capacity_eq, ok.capacity_eq ▸ accepted.room, fun list => ?_⟩
    exact listsOk_push ok.lists op.list accepted (uncut accepted) list
  · rcases zedisAolLpush_cases s.log (s.lists op.list) op.key op.val with
      ⟨-, result⟩ | ⟨fits, -⟩
    · simp only [loggedPush, sharedPush, result] at taken
      cases taken
      rw [if_neg (by decide), Function.update_eq_self]
      exact ok
    · exact absurd fits accepted

/-- **Runs of uncut pushes keep all lists in order.** -/
theorem sharedOk_of_run {mapped : Option (Nat → UInt8)} {log : ZedisAppendLog}
    (made : zedisAolInit mapped capacity = some log) {ops : List Push}
    (run : Run loggedPush PushUncut (⟨log, fun _ => emptyList⟩, fun _ => []) ops (s, written)) :
    SharedOk capacity s written :=
  run.invariant (fun state => SharedOk capacity state.1 state.2)
    (fun _ _ _ ok uncut taken => loggedPush_ok ok uncut taken) (.start made)

/-- **Lists that share a log**: each of them is the chain of its accepted pushes, and a push changes
no byte that was written before. -/
theorem shared_lists {mapped : Option (Nat → UInt8)} {log : ZedisAppendLog}
    (made : zedisAolInit mapped capacity = some log) (small : capacity < 2 ^ 32) {ops : List Push}
    (run : Run loggedPush Always (⟨log, fun _ => emptyList⟩, fun _ => []) ops (s, written)) :
    (∀ list, ListOk s.log (s.lists list) (written list)) ∧
      ∀ op, ∀ i < s.log.writePos, (sharedPush s op).2.log.base i = s.log.base i := by
  have ok := run.invariant (fun state => SharedOk capacity state.1 state.2)
    (fun state op next ok _ taken => loggedPush_ok ok (ok.open32 small) taken) (.start made)
  refine ⟨ok.lists, fun op i below => ?_⟩
  unfold sharedPush
  rcases zedisAolLpush_cases s.log (s.lists op.list) op.key op.val with
    ⟨-, result⟩ | ⟨-, result⟩
  · rw [result]
  · rw [result]
    exact writeRecord_below _ _ _ _ _ below

end Runs

/-- Two lists in a log of `4096` bytes: three pushes are accepted, one is refused. -/
theorem shared_lists_two : ∃ log s written,
    zedisAolInit (some fun _ => 0) 4096 = some log ∧
      Run loggedPush Always (⟨log, fun _ => emptyList⟩, fun _ => [])
        [⟨0, [97], [1]⟩, ⟨1, [98], [2]⟩, ⟨0, [97], []⟩, ⟨0, [97], [3]⟩] (s, written) ∧
      Visits s.log (s.lists 0).headOff [(20, [3]), (0, [1])] := by
  obtain ⟨log, made⟩ := Option.isSome_iff_exists.mp
    (show (zedisAolInit (some fun _ => 0) 4096).isSome by decide)
  have written : ((zedisAolInit (some fun _ => 0) 4096).bind fun log =>
      (replay loggedPush (⟨log, fun _ => emptyList⟩, fun _ => [])
        [⟨0, [97], [1]⟩, ⟨1, [98], [2]⟩, ⟨0, [97], []⟩, ⟨0, [97], [3]⟩]).map
          fun state => state.2 0) = some [(20, [3]), (0, [1])] := by decide +kernel
  rw [made, Option.bind_some] at written
  obtain ⟨⟨s, written⟩, returned, records⟩ := Option.map_eq_some_iff.mp written
  have run : Run loggedPush Always _ _ (s, written) := Run.of_replay (fun _ _ _ => trivial) returned
  have law := ((shared_lists made (by decide) run).1 0).visits
  rw [show written 0 = [(20, [3]), (0, [1])] from records] at law
  exact ⟨log, s, written, made, run, law⟩

end Zedis.AppendLog

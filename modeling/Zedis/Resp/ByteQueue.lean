/-
**The buffer of a parser is a queue of bytes.**

`resp_parser_feed` puts bytes in at the end and `resp_parser_next` takes the bytes of an accepted value
off the front. Both move the unread bytes to the front of the buffer at times, a feed where the rest of
the buffer is too short and a next where more than half of it has been read; neither changes what is
unread. So over any run of calls the unread bytes are those of the accepted feeds without the ones that
were consumed, and a feed is refused exactly if it does not fit with the unread bytes
(`parser_byte_queue`).
-/

import Zedis.Lib.Run
import Zedis.Resp.Consumed

namespace Zedis.Resp

open Zedis.Lib

/-- A call. -/
inductive ParserCall
  | feed (data : Bytes)
  | next
deriving DecidableEq, Repr

/-- A parser with its nodes, the bytes of the accepted feeds, and how many of them the calls that returned
`RESP_OK` have consumed. -/
structure QueueState where
  parser : RespParser
  pool : NodePool
  fed : Bytes
  consumed : Nat

/-- The state a call leaves. A result of `resp_parser_next` has consumed the bytes by which it has moved
`r_pos`. -/
def queueStep (malloc : Nat → Bool) (s : QueueState) : ParserCall → Option QueueState
  | .feed data =>
    match respParserFeed s.parser data with
    | none => some s
    | some parser => some { s with parser := parser, fed := s.fed ++ data }
  | .next =>
    (nextNodes malloc s.parser s.pool).map fun (verdict, parser, pool) =>
      match verdict with
      | .ok _ => { s with
          parser := parser, pool := pool
          consumed := s.consumed + (parser.rPos - (compacted s.parser).rPos) }
      | _ => { s with parser := parser, pool := pool }

/-- **The invariant.** -/
structure QueueInv (bufCap : Nat) (s : QueueState) : Prop where
  valid : s.parser.Valid
  cap : s.parser.bufCap = bufCap
  nodes : ∃ free, FreeNodes s.pool free
  consumed_le : s.consumed ≤ s.fed.length
  unread_eq : unread s.parser = s.fed.drop s.consumed

/-! ### Feeding -/

section Feed

variable {p : RespParser}

/-- **A feed is refused exactly if it does not fit with the unread bytes.** -/
theorem respParserFeed_none_iff (valid : p.Valid) (data : Bytes) :
    respParserFeed p data = none ↔ (unread p).length + data.length > p.bufCap := by
  constructor
  · intro refused
    by_contra room
    obtain ⟨after, fed, -⟩ := respParserFeed_of_room valid data (Nat.not_lt.mp room)
    cases refused.symm.trans fed
  · intro full
    have read := valid.read
    have written := valid.written
    rw [length_unread] at full
    unfold respParserFeed
    rw [if_neg (by omega), if_neg (by omega), if_pos (by omega)]

theorem respParserFeed_bufCap (valid : p.Valid) {data : Bytes} {after : RespParser}
    (fed : respParserFeed p data = some after) : after.bufCap = p.bufCap := by
  by_cases room : (unread p).length + data.length ≤ p.bufCap
  · obtain ⟨other, fed', same⟩ := respParserFeed_of_room valid data room
    cases fed.symm.trans fed'
    exact same
  · have refused := (respParserFeed_none_iff valid data).mpr (Nat.not_le.mp room)
    cases refused.symm.trans fed

end Feed

/-! ### Parsing -/

section Next

variable {p : RespParser} {pool : NodePool} {free : List Nat}

theorem compacted_bufCap (valid : p.Valid) : (compacted p).bufCap = p.bufCap := by
  unfold compacted
  split
  · exact (respCompact_spec valid).2.2.1
  · rfl

/-- What is unread after a position. -/
theorem unread_advanced {pos : Nat} (ahead : p.rPos ≤ pos) :
    unread { p with rPos := pos } = (unread p).drop (pos - p.rPos) := by
  simp only [unread, window]
  rw [drop_segment, Nat.add_sub_cancel' ahead, Nat.sub_sub, Nat.add_sub_cancel' ahead]

/-- What a call of `resp_parser_next` leaves of the buffer. -/
structure NextLeaves (p : RespParser) (said : Verdict RespValueT) (last : RespParser) : Prop where
  valid : last.Valid
  cap : last.bufCap = p.bufCap
  accepted : ∀ out, said = .ok out → (compacted p).rPos ≤ last.rPos ∧
    unread last = (unread p).drop (last.rPos - (compacted p).rPos) ∧
    last.rPos - (compacted p).rPos ≤ (unread p).length
  other : (∀ out, said ≠ .ok out) → unread last = unread p

/-- **A call returns**, and takes bytes off the front or none. -/
theorem nextNodes_leaves (valid : p.Valid) (start : FreeNodes pool free) (malloc : Nat → Bool) :
    ∃ said last pool' free', nextNodes malloc p pool = some (said, last, pool') ∧
      FreeNodes pool' free' ∧ NextLeaves p said last := by
  obtain ⟨validQ, same⟩ : (compacted p).Valid ∧ unread (compacted p) = unread p := valid.compacted
  have cap := compacted_bufCap valid
  obtain ⟨said, last, pool', free', runs, nodes, result⟩ := nextNodes_cases valid start malloc
  refine ⟨said, last, pool', free', runs, nodes, ?_⟩
  cases result with
  | waits => exact ⟨validQ, cap, fun _ other => (by cases other), fun _ => same⟩
  | fails => exact ⟨validQ, cap, fun _ other => (by cases other), fun _ => same⟩
  | @accepts out _ next _ taken _ =>
    refine ⟨⟨taken.inside, validQ.written, validQ.granted⟩, cap,
      fun _ _ => ⟨taken.advances.le, ?_, ?_⟩, fun other => absurd rfl (other out)⟩
    · rw [← same]
      exact unread_advanced taken.advances.le
    · rw [← same, length_unread]
      exact Nat.sub_le_sub_right taken.inside _

end Next

/-! ### Runs -/

section Runs

variable {malloc : Nat → Bool} {s after : QueueState} {bufCap : Nat}

theorem QueueInv.feed (inv : QueueInv bufCap s) {data : Bytes}
    (taken : queueStep malloc s (.feed data) = some after) : QueueInv bufCap after := by
  cases fed : respParserFeed s.parser data with
  | none =>
    simp only [queueStep, fed] at taken
    cases taken
    exact inv
  | some parser =>
    simp only [queueStep, fed] at taken
    cases taken
    obtain ⟨valid, appended⟩ := respParserFeed_spec inv.valid fed
    refine ⟨valid, (respParserFeed_bufCap inv.valid fed).trans inv.cap, inv.nodes, ?_, ?_⟩
    · rw [List.length_append]
      exact inv.consumed_le.trans (Nat.le_add_right _ _)
    · rw [List.drop_append_of_le_length inv.consumed_le, appended, inv.unread_eq]

theorem QueueInv.next (inv : QueueInv bufCap s) :
    ∃ after, queueStep malloc s .next = some after ∧ QueueInv bufCap after := by
  obtain ⟨free, nodes⟩ := inv.nodes
  obtain ⟨said, last, pool', free', runs, nodes', leaves⟩ := nextNodes_leaves inv.valid nodes malloc
  have returns : queueStep malloc s .next = some _ := congrArg (Option.map _) runs
  rw [returns]
  have cap := leaves.cap.trans inv.cap
  cases said with
  | needMore =>
    refine ⟨_, rfl, leaves.valid, cap, ⟨free', nodes'⟩, inv.consumed_le, ?_⟩
    exact (leaves.other fun _ ok => by cases ok).trans inv.unread_eq
  | error =>
    refine ⟨_, rfl, leaves.valid, cap, ⟨free', nodes'⟩, inv.consumed_le, ?_⟩
    exact (leaves.other fun _ ok => by cases ok).trans inv.unread_eq
  | ok out =>
    obtain ⟨-, rest, few⟩ := leaves.accepted out rfl
    have most := inv.consumed_le
    rw [inv.unread_eq, List.length_drop] at few
    refine ⟨_, rfl, leaves.valid, cap, ⟨free', nodes'⟩, ?_, ?_⟩
    · dsimp only
      omega
    · rw [rest, inv.unread_eq, List.drop_drop]

theorem QueueInv.step (inv : QueueInv bufCap s) {call : ParserCall}
    (taken : queueStep malloc s call = some after) : QueueInv bufCap after := by
  cases call with
  | feed data => exact inv.feed taken
  | next =>
    obtain ⟨other, taken', inv'⟩ := inv.next
    cases taken.symm.trans taken'
    exact inv'

/-- **The buffer is a queue of bytes**, for every run of calls and whatever requests for nodes are
granted. An object of `2 ^ 63 - 1` bytes or more is never granted by `malloc`. -/
theorem parser_byte_queue {buffers : Nat → Option (Nat → UInt8)}
    (bounded : ∀ size buf, buffers size = some buf → size < 2 ^ 63 - 1) {bufCap : Nat} {p : RespParser}
    (made : respParserInitEx buffers bufCap = some p) (malloc : Nat → Bool) (mem : Nat → RespNode)
    {calls : List ParserCall} {s : QueueState}
    (run : Run (queueStep malloc) Always ⟨p, ⟨mem, none, 0⟩, [], 0⟩ calls s) :
    s.parser.rPos ≤ s.parser.wPos ∧ s.parser.wPos ≤ s.parser.bufCap ∧ s.parser.bufCap = p.bufCap ∧
      s.consumed ≤ s.fed.length ∧ unread s.parser = s.fed.drop s.consumed ∧
      (∀ data, respParserFeed s.parser data = none ↔
        (unread s.parser).length + data.length > s.parser.bufCap) ∧
      (∀ data, respParserFeed s.parser data = none →
        queueStep malloc s (.feed data) = some s) ∧
      ∀ call, ∃ after, queueStep malloc s call = some after := by
  obtain ⟨valid, empty⟩ := respParserInitEx_spec bounded made
  have inv := run.invariant (QueueInv p.bufCap) (fun _ _ _ inv _ taken => inv.step taken)
    ⟨valid, rfl, ⟨[], freeNodes_new mem⟩, Nat.le_refl _, empty⟩
  refine ⟨inv.valid.read, inv.valid.written, inv.cap, inv.consumed_le, inv.unread_eq,
    respParserFeed_none_iff inv.valid, fun data refused => ?_, fun call => ?_⟩
  · rw [queueStep, refused]
  · cases call with
    | feed data =>
      cases fed : respParserFeed s.parser data with
      | none => exact ⟨s, by rw [queueStep, fed]⟩
      | some parser => exact ⟨_, by rw [queueStep, fed]⟩
    | next =>
      obtain ⟨after, taken, -⟩ := inv.next
      exact ⟨after, taken⟩

end Runs

/-- A parser with a buffer of 16 bytes: a command, a refused feed, two calls and a feed that makes room. -/
theorem parser_byte_queue_inline : ∃ p s,
    respParserInitEx smallMalloc 16 = some p ∧
      Run (queueStep fun _ => true) Always ⟨p, ⟨fun _ => zeroNode, none, 0⟩, [], 0⟩
        [.feed (ascii "PING\r\n:1\r\n:"), .feed (ascii "1234567"), .next, .next,
          .feed (ascii "1234567")] s ∧
      unread s.parser = ascii ":1234567" := by
  have made : respParserInitEx smallMalloc 16 = some ⟨fun _ => 0, 16, 0, 0⟩ := rfl
  have played : (replay (queueStep fun _ => true)
      ⟨⟨fun _ => 0, 16, 0, 0⟩, ⟨fun _ => zeroNode, none, 0⟩, [], 0⟩
      [.feed (ascii "PING\r\n:1\r\n:"), .feed (ascii "1234567"), .next, .next,
        .feed (ascii "1234567")]).map (fun s => s.fed.drop s.consumed) =
        some (ascii ":1234567") := by decide +kernel
  obtain ⟨s, returned, bytes⟩ := Option.map_eq_some_iff.mp played
  have run : Run (queueStep fun _ => true) Always _ _ s := Run.of_replay (fun _ _ _ => trivial) returned
  obtain ⟨-, -, -, -, same, -⟩ := parser_byte_queue smallMalloc_bounded made _ _ run
  exact ⟨_, s, made, run, same.trans bytes⟩

end Zedis.Resp

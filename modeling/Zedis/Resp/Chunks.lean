/-
**The parsed values do not depend on how the bytes arrive.**

The unread bytes of the buffer are a string: a feed appends to it, a compaction leaves it alone, and
`resp_parser_next` takes off its front what `decode` takes off it. `readChunks_drained`: chunks fed and
read one after the other give what `decode` reads off all their bytes at once. It is settled and reads
one thing only, so two ways of cutting the same bytes give the same values and the same last status.
-/

import Zedis.Resp.Window

namespace Zedis.Resp

open Zedis.Lib

/-- The positions of a parser, and the size of its buffer. -/
structure RespParser.Valid (p : RespParser) : Prop where
  read : p.rPos ≤ p.wPos
  written : p.wPos ≤ p.bufCap
  granted : p.bufCap < 2 ^ 63 - 1

/-- The unread bytes. -/
def unread (p : RespParser) : Bytes := window p p.rPos

theorem length_unread (p : RespParser) : (unread p).length = p.wPos - p.rPos := by
  rw [unread, window, length_segment]

section Buffer

variable {p : RespParser}

theorem respCompact_spec (valid : p.Valid) : (respCompact p).Valid ∧
    unread (respCompact p) = unread p ∧ (respCompact p).bufCap = p.bufCap ∧
    (respCompact p).rPos = 0 ∧ (respCompact p).wPos = p.wPos - p.rPos := by
  unfold respCompact
  by_cases front : p.rPos = 0
  · rw [if_pos front]
    exact ⟨valid, rfl, rfl, front, by rw [front, Nat.sub_zero]⟩
  · rw [if_neg front]
    refine ⟨⟨Nat.zero_le _, ?_, valid.granted⟩, ?_, rfl, rfl, rfl⟩
    · exact (Nat.sub_le _ _).trans valid.written
    · have back := segment_store_self p.buf 0 (segment p.buf p.rPos (p.wPos - p.rPos))
      rwa [length_segment] at back

/-- The parser that `resp_parser_next` works on. -/
theorem RespParser.Valid.compacted (valid : p.Valid) :
    (if p.rPos > p.bufCap / 2 then respCompact p else p).Valid ∧
      unread (if p.rPos > p.bufCap / 2 then respCompact p else p) = unread p := by
  split
  · exact ⟨(respCompact_spec valid).1, (respCompact_spec valid).2.1⟩
  · exact ⟨valid, rfl⟩

theorem appendBytes_spec (valid : p.Valid) {data : Bytes} (room : p.wPos + data.length ≤ p.bufCap) :
    (appendBytes p data).Valid ∧ unread (appendBytes p data) = unread p ++ data := by
  have ordered := valid.read
  refine ⟨⟨?_, room, valid.granted⟩, ?_⟩
  · exact ordered.trans (Nat.le_add_right _ _)
  · have length : p.wPos + data.length - p.rPos = p.wPos - p.rPos + data.length := by omega
    have boundary : p.rPos + (p.wPos - p.rPos) = p.wPos := by omega
    simp only [unread, window, appendBytes]
    rw [length, segment_add, boundary, segment_store_self, segment_store_disjoint]
    exact Or.inl boundary.le

/-- **A feed appends to the unread bytes.** -/
theorem respParserFeed_spec (valid : p.Valid) {data : Bytes} {after : RespParser}
    (fed : respParserFeed p data = some after) : after.Valid ∧ unread after = unread p ++ data := by
  unfold respParserFeed at fed
  by_cases empty : data.length = 0
  · rw [if_pos empty] at fed
    cases fed
    rw [List.length_eq_zero_iff.mp empty, List.append_nil]
    exact ⟨valid, rfl⟩
  rw [if_neg empty] at fed
  by_cases room : p.wPos + data.length ≤ p.bufCap
  · rw [if_pos room] at fed
    cases fed
    exact appendBytes_spec valid room
  rw [if_neg room] at fed
  by_cases full : p.bufCap - (p.wPos - p.rPos) < data.length
  · rw [if_pos full] at fed
    cases fed
  · rw [if_neg full] at fed
    cases fed
    obtain ⟨compact, same, cap, -, written⟩ := respCompact_spec valid
    rw [← same]
    refine appendBytes_spec compact ?_
    have := valid.read
    have := valid.written
    rw [cap, written]
    omega

/-- A feed that fits with the unread bytes is accepted. -/
theorem respParserFeed_of_room (valid : p.Valid) (data : Bytes)
    (room : (unread p).length + data.length ≤ p.bufCap) :
    ∃ after, respParserFeed p data = some after ∧ after.bufCap = p.bufCap := by
  rw [length_unread] at room
  unfold respParserFeed
  by_cases empty : data.length = 0
  · rw [if_pos empty]
    exact ⟨p, rfl, rfl⟩
  · rw [if_neg empty]
    by_cases atEnd : p.wPos + data.length ≤ p.bufCap
    · rw [if_pos atEnd]
      exact ⟨_, rfl, rfl⟩
    · rw [if_neg atEnd, if_neg (by omega)]
      exact ⟨_, rfl, (respCompact_spec valid).2.2.1⟩

/-- **`resp_parser_next` takes one value off the unread bytes.** -/
theorem respParserNext_spec (valid : p.Valid) : ∃ verdict after,
    respParserNext p = some (verdict, after) ∧ after.Valid ∧
      decode (unread p) =
        some (verdict.map fun value => (value.contents after.buf, unread after)) ∧
      (verdict = .needMore → unread after = unread p) := by
  unfold respParserNext
  obtain ⟨validQ, same⟩ := valid.compacted
  generalize (if p.rPos > p.bufCap / 2 then respCompact p else p) = q at validQ same
  dsimp only
  rw [← same]
  have small : q.wPos < 2 ^ 63 - 1 := validQ.written.trans_lt validQ.granted
  have parsed := parseValue_simulates small (q.wPos + 1)
  have decoded := parsed.step q.rPos validQ.read
  have enough : (window q q.rPos).length < q.wPos + 1 := by
    rw [window, length_segment]
    omega
  rw [decodeAt_eq enough] at decoded
  cases said : parseValue q (q.wPos + 1) q.rPos with
  | none =>
    have total := decode_isSome (window q q.rPos)
    rw [decoded, said] at total
    cases total
  | some verdict =>
    rw [said] at decoded
    cases verdict with
    | needMore => exact ⟨.needMore, q, rfl, validQ, decoded, fun _ => rfl⟩
    | error => exact ⟨.error, q, rfl, validQ, decoded, fun _ => rfl⟩
    | ok result =>
      have inside := parsed.kept q.rPos result.1 result.2 validQ.read said
      refine ⟨.ok result.1, { q with rPos := result.2 }, rfl, ?_, decoded, fun more => ?_⟩
      · exact ⟨inside, validQ.written, validQ.granted⟩
      · cases more

end Buffer

/-! ### Reading -/

section Reading

/-- A last status, and the bytes left where more are needed. -/
def Ends (status : RespParseStatus) (left : Option Bytes) : Prop :=
  (status = .needMore ∧ left.isSome) ∨ (status = .error ∧ left = none)

/-- **The loop over `resp_parser_next`** returns, with what `decode` reads off the unread bytes. -/
theorem drain_drained : ∀ (fuel : Nat) (p : RespParser), p.Valid → (unread p).length < fuel →
    ∃ values status after left, drain fuel p = some (values, status, after) ∧ after.Valid ∧
      Drained decode (unread p) values left ∧ Ends status left ∧
      (status = .needMore → left = some (unread after)) := by
  intro fuel
  induction fuel with
  | zero => exact fun p _ enough => absurd enough (Nat.not_lt_zero _)
  | succ fuel ih =>
    intro p valid enough
    obtain ⟨verdict, after, next, validAfter, decoded, idle⟩ := respParserNext_spec valid
    rw [drain, next]
    cases verdict with
    | needMore =>
      refine ⟨[], .needMore, after, some (unread p), rfl, validAfter, .stop decoded, ?_, fun _ => ?_⟩
      · exact Or.inl ⟨rfl, rfl⟩
      · rw [idle rfl]
    | error =>
      exact ⟨[], .error, after, none, rfl, validAfter, .fail decoded, Or.inr ⟨rfl, rfl⟩, nofun⟩
    | ok value =>
      have shorter := decode_shrinks _ _ _ decoded
      obtain ⟨values, status, last, left, drained, validLast, law, ends, rest⟩ :=
        ih after validAfter (by omega)
      refine ⟨value.contents after.buf :: values, status, last, left, ?_, validLast,
        .step decoded law, ends, rest⟩
      simp only [Option.bind_some, drained, Option.map_some]

/-- **Chunks read one after the other** give what `decode` reads off all their bytes. -/
theorem readChunks_drained : ∀ (chunks : List Bytes) (p : RespParser), p.Valid →
    decode (unread p) = some .needMore → ∃ outcome, readChunks p chunks = some outcome ∧
      ∀ values status, outcome = some (values, status) → ∃ left,
        Drained decode (unread p ++ chunks.flatten) values left ∧ Ends status left := by
  intro chunks
  induction chunks with
  | nil =>
    intro p _ idle
    refine ⟨some ([], .needMore), rfl, fun values status same => ?_⟩
    cases same
    rw [List.flatten_nil, List.append_nil]
    exact ⟨some (unread p), .stop idle, Or.inl ⟨rfl, rfl⟩⟩
  | cons chunk chunks ih =>
    intro p valid idle
    rw [readChunks]
    cases fed : respParserFeed p chunk with
    | none => exact ⟨none, rfl, nofun⟩
    | some q =>
      obtain ⟨validQ, joined⟩ := respParserFeed_spec valid fed
      have enough : (unread q).length < q.wPos + 1 := by
        rw [length_unread]
        omega
      obtain ⟨values, status, after, left, drained, validAfter, law, ends, rest⟩ :=
        drain_drained (q.wPos + 1) q validQ enough
      rw [joined] at law
      simp only [drained, Option.bind_some]
      rw [List.flatten_cons, ← List.append_assoc]
      rcases ends with ⟨rfl, -⟩ | ⟨rfl, failed⟩
      · have left := rest rfl
        obtain ⟨outcome, read, laws⟩ := ih after validAfter (law.stopped left)
        refine ⟨_, by rw [if_neg nofun, read, Option.map_some], fun all last same => ?_⟩
        obtain ⟨⟨more, final⟩, found, same⟩ := Option.map_eq_some_iff.mp same
        cases same
        obtain ⟨left', law', ends'⟩ := laws more final found
        exact ⟨left', law.append decode_settled left law', ends'⟩
      · refine ⟨_, if_pos rfl, fun all last same => ?_⟩
        cases same
        exact ⟨none, law.append_error decode_settled failed _, Or.inr ⟨rfl, rfl⟩⟩

/-- A new parser has nothing to read. -/
theorem respParserInitEx_spec {malloc : Nat → Option (Nat → UInt8)}
    (bounded : ∀ size buf, malloc size = some buf → size < 2 ^ 63 - 1) {bufCap : Nat} {p : RespParser}
    (made : respParserInitEx malloc bufCap = some p) : p.Valid ∧ unread p = [] := by
  obtain ⟨buf, granted, rfl⟩ := Option.map_eq_some_iff.mp made
  exact ⟨⟨le_rfl, Nat.zero_le _, bounded _ buf granted⟩, rfl⟩

/-- **The values and the last status do not depend on the chunks.** An object of `2 ^ 63 - 1` bytes or
more is never granted by `malloc`. -/
theorem readChunks_independent (malloc : Nat → Option (Nat → UInt8))
    (bounded : ∀ size buf, malloc size = some buf → size < 2 ^ 63 - 1) {bufCap bufCap' : Nat}
    {p p' : RespParser} (made : respParserInitEx malloc bufCap = some p)
    (made' : respParserInitEx malloc bufCap' = some p') (chunks chunks' : List Bytes)
    (same : chunks.flatten = chunks'.flatten) :
    ∃ outcome outcome', readChunks p chunks = some outcome ∧
      readChunks p' chunks' = some outcome' ∧
      ∀ result result', outcome = some result → outcome' = some result' → result = result' := by
  obtain ⟨valid, empty⟩ := respParserInitEx_spec bounded made
  obtain ⟨valid', empty'⟩ := respParserInitEx_spec bounded made'
  obtain ⟨outcome, read, law⟩ := readChunks_drained chunks p valid (by rw [empty]; rfl)
  obtain ⟨outcome', read', law'⟩ := readChunks_drained chunks' p' valid' (by rw [empty']; rfl)
  refine ⟨outcome, outcome', read, read', ?_⟩
  rintro ⟨values, status⟩ ⟨values', status'⟩ rfl rfl
  obtain ⟨left, drained, ends⟩ := law values status rfl
  obtain ⟨left', drained', ends'⟩ := law' values' status' rfl
  rw [empty] at drained
  rw [empty', ← same] at drained'
  obtain ⟨rfl, rfl⟩ := drained.unique drained'
  congr 1
  rcases ends with ⟨rfl, isSome⟩ | ⟨rfl, isNone⟩
  · rcases ends' with ⟨rfl, -⟩ | ⟨-, isNone⟩
    · rfl
    · rw [isNone] at isSome
      cases isSome
  · rcases ends' with ⟨-, isSome⟩ | ⟨rfl, -⟩
    · rw [isNone] at isSome
      cases isSome
    · rfl

end Reading

/-- An allocator of zeroed buffers of up to a megabyte. -/
def smallMalloc (size : Nat) : Option (Nat → UInt8) :=
  if size ≤ 2 ^ 20 then some fun _ => 0 else none

theorem smallMalloc_bounded (size : Nat) (buf : Nat → UInt8) (granted : smallMalloc size = some buf) :
    size < 2 ^ 63 - 1 := by
  unfold smallMalloc at granted
  split at granted
  · omega
  · cases granted

/-- `*1`, `$1`, `a` and the start of a simple string, at once and cut inside its lines. -/
theorem readChunks_independent_array : ∃ p p' result,
    readChunks p [[42, 49, 13, 10, 36, 49, 13, 10, 97, 13, 10, 43]] = some (some result) ∧
      readChunks p' [[42, 49, 13], [10, 36, 49, 13, 10, 97], [13, 10, 43]] = some (some result) := by
  have made : respParserInitEx smallMalloc 16 = some ⟨fun _ => 0, 16, 0, 0⟩ := rfl
  have made' : respParserInitEx smallMalloc 0 = some ⟨fun _ => 0, 64 * 1024, 0, 0⟩ := rfl
  obtain ⟨outcome, outcome', read, read', same⟩ := readChunks_independent smallMalloc
    smallMalloc_bounded made made' [[42, 49, 13, 10, 36, 49, 13, 10, 97, 13, 10, 43]]
    [[42, 49, 13], [10, 36, 49, 13, 10, 97], [13, 10, 43]] rfl
  have accepted : ((readChunks ⟨fun _ => 0, 16, 0, 0⟩
      [[42, 49, 13, 10, 36, 49, 13, 10, 97, 13, 10, 43]]).bind id).isSome := by decide +kernel
  have accepted' : ((readChunks ⟨fun _ => 0, 64 * 1024, 0, 0⟩
      [[42, 49, 13], [10, 36, 49, 13, 10, 97], [13, 10, 43]]).bind id).isSome := by decide +kernel
  rw [read] at accepted
  rw [read'] at accepted'
  obtain ⟨result, rfl⟩ := Option.isSome_iff_exists.mp accepted
  obtain ⟨result', rfl⟩ := Option.isSome_iff_exists.mp accepted'
  rw [same result result' rfl rfl] at read
  exact ⟨_, _, result', read, read'⟩

end Zedis.Resp

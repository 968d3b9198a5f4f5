/-
**An accepted value is made of the bytes it consumes.**

`Taken p pos next value`: the value at `pos` ends at `next`, which is behind `pos` and not behind
`w_pos`, and every string of it is a slice of the bytes between the two. It holds of each value that
`parse_value` accepts, by induction on the depth: an element of an array starts where the one before it
ends (`times_taken`), and no value is empty. So a call of `resp_parser_next` that accepts moves `r_pos`
on, and one that does not leaves the unread bytes alone (`nextNodes_progress`).
-/

import Zedis.Resp.Refined

namespace Zedis.Resp

open Zedis.Lib Zedis.Arena

mutual

/-- The strings of a value, those of its elements included. -/
def RespValue.strings {β : Type} : RespValue β → List β
  | .simple text => [text]
  | .error text => [text]
  | .integer _ => []
  | .bulk data => [data]
  | .null => []
  | .array elements => RespValue.stringsOf elements

def RespValue.stringsOf {β : Type} : List (RespValue β) → List β
  | [] => []
  | value :: values => value.strings ++ RespValue.stringsOf values

end

theorem stringsOf_map_bulk {β : Type} (strings : List β) :
    RespValue.stringsOf (strings.map RespValue.bulk) = strings := by
  induction strings with
  | nil => rfl
  | cons first strings ih =>
    rw [List.map_cons, RespValue.stringsOf, ih]
    rfl

/-- A slice of the bytes from `low` up to `high`. -/
def Slice.Within (low high : Nat) (slice : Slice) : Prop :=
  low ≤ slice.start ∧ slice.start + slice.len ≤ high

theorem Slice.Within.mono {low low' high high' : Nat} {slice : Slice} (within : slice.Within low high)
    (below : low' ≤ low) (above : high ≤ high') : slice.Within low' high' :=
  ⟨below.trans within.1, within.2.trans above⟩

/-- **The value at `pos` ends at `next`**, and its strings are in between. -/
structure Taken (p : RespParser) (pos next : Nat) (value : RespValue Slice) : Prop where
  advances : pos < next
  inside : next ≤ p.wPos
  within : ∀ slice ∈ value.strings, slice.Within pos next

section Taken

variable {p : RespParser} {pos next : Nat}

/-- Some elements, one after the other. -/
theorem times_taken {parse : Nat → Option (Verdict (RespValue Slice × Nat))}
    (each : ∀ pos value next, parse pos = some (.ok (value, next)) → Taken p pos next value) :
    ∀ {n pos next : Nat} {values : List (RespValue Slice)}, pos ≤ p.wPos →
      times parse n pos = some (.ok (values, next)) → pos ≤ next ∧ next ≤ p.wPos ∧
        ∀ slice ∈ RespValue.stringsOf values, slice.Within pos next := by
  intro n
  induction n with
  | zero =>
    intro pos next values inside said
    cases said
    exact ⟨Nat.le_refl _, inside, fun slice member => absurd member List.not_mem_nil⟩
  | succ n ih =>
    intro pos next values inside said
    rcases times_succ_cases said with ⟨-, same⟩ | ⟨-, same⟩ | ⟨first, middle, others, here, later, same⟩
    · cases same
    · cases same
    · cases others with
      | needMore => cases same
      | error => cases same
      | ok rest =>
        cases same
        have taken := each pos first middle here
        obtain ⟨onward, inside, within⟩ := ih taken.inside later
        refine ⟨taken.advances.le.trans onward, inside, fun slice member => ?_⟩
        rcases List.mem_append.mp member with isFirst | isLater
        · exact (taken.within slice isFirst).mono (Nat.le_refl _) onward
        · exact (within slice isLater).mono taken.advances.le (Nat.le_refl _)

theorem inlineTokens_within {buf : Nat → UInt8} {lineEnd : Nat} : ∀ {fuel i : Nat} {slices : List Slice},
    inlineTokens buf lineEnd fuel i = some slices → ∀ slice ∈ slices, slice.Within i lineEnd := by
  intro fuel
  induction fuel with
  | zero =>
    intro i slices tokens
    cases tokens
  | succ fuel ih =>
    intro i slices tokens slice member
    rw [inlineTokens] at tokens
    split at tokens
    · rename_i more
      have before := (skipWhile_spec buf isBlank more.le).1
      dsimp only at tokens
      generalize skipWhile buf isBlank lineEnd i = tok at tokens before
      split at tokens
      · cases tokens
        cases member
      · rename_i visible
        obtain ⟨above, below, -⟩ :=
          skipWhile_spec buf (fun b => !isBlank b) (Nat.le_of_not_le visible)
        generalize skipWhile buf (fun b => !isBlank b) lineEnd tok = stop at tokens above below
        obtain ⟨others, later, rfl⟩ := Option.map_eq_some_iff.mp tokens
        rcases List.mem_cons.mp member with rfl | isLater
        · exact ⟨before, by dsimp only; omega⟩
        · exact (ih later slice isLater).mono (before.trans above) (Nat.le_refl _)
    · cases tokens
      cases member

theorem respParseInline_taken {value : RespValue Slice}
    (said : respParseInline p pos = some (.ok (value, next))) : Taken p pos next value := by
  unfold respParseInline at said
  cases found : (List.range' pos (p.wPos - pos)).find? fun i => p.buf i == 10 with
  | none =>
    rw [found] at said
    cases said
  | some lf =>
    have bounds := List.mem_range'_1.mp (List.mem_of_find?_eq_some found)
    rw [found] at said
    obtain ⟨slices, tokens, same⟩ := Option.map_eq_some_iff.mp said
    cases same
    refine ⟨by omega, by omega, fun slice member => ?_⟩
    rw [RespValue.strings, stringsOf_map_bulk] at member
    have below := (lineEnd_bounds p.buf bounds.1).2
    exact (inlineTokens_within tokens slice member).mono (Nat.le_refl _) (below.trans (Nat.le_succ lf))

theorem parseBulk_taken (small : p.wPos < 2 ^ 63 - 1) {crlf : Nat} (low : pos ≤ crlf)
    (inside : crlf + 2 ≤ p.wPos) {bulkLen : Int} (fits : bulkLen < 2 ^ 63) {value : RespValue Slice}
    (said : parseBulk p crlf bulkLen = .ok (value, next)) : Taken p pos next value := by
  have below := (parseBulk_eq inside small fits).2 value next said
  unfold parseBulk at said
  split at said
  · cases said
    exact ⟨by omega, inside, fun slice member => absurd member List.not_mem_nil⟩
  · obtain ⟨noWrap, noWrap'⟩ := dataEnd_mod inside small fits
    dsimp only at said
    rw [noWrap, noWrap'] at said
    split at said
    · cases said
    · split at said
      · cases said
      · cases said
        refine ⟨by omega, below, fun slice member => ?_⟩
        rw [List.mem_singleton.mp member]
        exact ⟨by dsimp only; omega, by dsimp only; omega⟩

theorem parseArray_taken {parse : Nat → Option (Verdict (RespValue Slice × Nat))}
    (each : ∀ pos value next, parse pos = some (.ok (value, next)) → Taken p pos next value)
    {start : Nat} (low : pos < start) (inside : start ≤ p.wPos) {count : Int} {value : RespValue Slice}
    (said : parseArray parse count start = some (.ok (value, next))) : Taken p pos next value := by
  obtain ⟨verdict, loops, same⟩ := Option.map_eq_some_iff.mp said
  cases verdict with
  | needMore => cases same
  | error => cases same
  | ok result =>
    cases same
    obtain ⟨onward, inside, within⟩ := times_taken each inside loops
    exact ⟨low.trans_le onward, inside, fun slice member =>
      (within slice member).mono low.le (Nat.le_refl _)⟩

/-- A line without further bytes. -/
theorem taken_line {crlf : Nat} {value : RespValue Slice} (low : pos + 1 ≤ crlf)
    (inside : crlf + 2 ≤ p.wPos) (within : ∀ slice ∈ value.strings, slice.Within pos (crlf + 2)) :
    Taken p pos (crlf + 2) value :=
  ⟨by omega, inside, within⟩

/-- **Every value that `parse_value` accepts** is made of the bytes it consumes. -/
theorem parseValue_taken (small : p.wPos < 2 ^ 63 - 1) : ∀ (fuel pos : Nat) (value : RespValue Slice)
    (next : Nat), parseValue p fuel pos = some (.ok (value, next)) → Taken p pos next value := by
  intro fuel
  induction fuel with
  | zero =>
    intro pos value next said
    cases said
  | succ fuel ih =>
    intro pos value next said
    rw [parseValue] at said
    split at said
    · cases said
    dsimp only at said
    split at said
    · exact respParseInline_taken said
    cases found : respFindCrlf p (pos + 1) with
    | none =>
      rw [found] at said
      cases said
    | some crlf =>
      obtain ⟨low, inside⟩ := respFindCrlf_bounds found
      have line : Slice.Within pos (crlf + 2) ⟨pos + 1, crlf - (pos + 1)⟩ :=
        ⟨Nat.le_succ pos, by dsimp only; omega⟩
      rw [found] at said
      dsimp only at said
      split at said
      · cases said
        exact taken_line low inside fun slice member => List.mem_singleton.mp member ▸ line
      split at said
      · cases said
        exact taken_line low inside fun slice member => List.mem_singleton.mp member ▸ line
      cases number : respParseInt p.buf (pos + 1) crlf with
      | none =>
        rw [number] at said
        cases said
      | some count =>
        rw [number] at said
        dsimp only at said
        split at said
        · cases said
          exact taken_line low inside fun slice member => absurd member List.not_mem_nil
        split at said
        · have fits : count < 2 ^ 63 := readInt_lt ((respParseInt_eq _ _ _).symm.trans number)
          exact parseBulk_taken small (by omega) inside fits (Option.some.inj said)
        split at said
        · cases said
          exact taken_line low inside fun slice member => absurd member List.not_mem_nil
        · exact parseArray_taken ih (by omega) inside said

end Taken

/-! ### A call of `resp_parser_next` -/

/-- The parser at the start of a call: `resp__compact` has moved the unread bytes to the front, if more
than half of the buffer was read. -/
def compacted (p : RespParser) : RespParser := if p.rPos > p.bufCap / 2 then respCompact p else p

/-- **What a call leaves**: if it accepts, `r_pos` is behind where it was, and the strings of the value
at `*out` are slices of the bytes in between; else the unread bytes are those before the call. -/
def Progress (p : RespParser) (pool : NodePool) : Verdict RespValueT → RespParser → Prop
  | .ok out, last => last = { compacted p with rPos := last.rPos } ∧
      (compacted p).rPos < last.rPos ∧ last.rPos ≤ last.wPos ∧
      ∃ value nodes, ValueAt pool.mem value out nodes ∧
        ∀ slice ∈ value.strings, slice.Within (compacted p).rPos last.rPos
  | .needMore, last => unread last = unread p
  | .error, last => unread last = unread p

/-- What a call returns and the parser it leaves: it fails or waits with nothing taken, or takes the
bytes of a value off the front. -/
inductive NextResult (p : RespParser) (pool : NodePool) : Verdict RespValueT → RespParser → Prop
  | waits : NextResult p pool .needMore (compacted p)
  | fails : NextResult p pool .error (compacted p)
  | accepts {out : RespValueT} {value : RespValue Slice} {next : Nat} {nodes : List Nat} :
      Taken (compacted p) (compacted p).rPos next value → ValueAt pool.mem value out nodes →
      NextResult p pool (.ok out) { compacted p with rPos := next }

section Call

variable {p : RespParser} {pool : NodePool} {free : List Nat}

/-- The value at the start of the unread bytes is parsed. -/
theorem parseValue_compacted (valid : p.Valid) : ∃ verdict,
    parseValue (compacted p) ((compacted p).wPos + 1) (compacted p).rPos = some verdict := by
  obtain ⟨_, _, told, -⟩ := respParserNext_spec valid
  obtain ⟨verdict, parsed, -⟩ := Option.map_eq_some_iff.mp told
  exact ⟨verdict, parsed⟩

/-- **Everything a call can do to the buffer**, whatever requests for nodes are granted. -/
theorem nextNodes_cases (valid : p.Valid) (start : FreeNodes pool free) (malloc : Nat → Bool) :
    ∃ said last pool' free', nextNodes malloc p pool = some (said, last, pool') ∧
      FreeNodes pool' free' ∧ NextResult p pool' said last := by
  have validQ : (compacted p).Valid := valid.compacted.1
  obtain ⟨verdict, parsed⟩ := parseValue_compacted valid
  obtain ⟨said, pool', runs, follows⟩ :=
    @parseValueNodes_follows malloc _ _ _ pool free verdict start parsed
  have returns : nextNodes malloc p pool = some _ := congrArg (Option.map _) runs
  rw [returns]
  cases follows with
  | @needMore free' owns => exact ⟨_, _, pool', free', rfl, owns.now, .waits⟩
  | @error free' owns => exact ⟨_, _, pool', free', rfl, owns.now, .fails⟩
  | @refused free' _ owns _ => exact ⟨_, _, pool', free', rfl, owns.now, .fails⟩
  | @ok free' nodes mine theirs owns held =>
    obtain ⟨out, next⟩ := mine
    obtain ⟨value, _⟩ := theirs
    obtain ⟨rfl, held⟩ := held
    have taken := parseValue_taken (validQ.written.trans_lt validQ.granted) _ _ _ _ parsed
    exact ⟨_, _, pool', free', rfl, owns.now, .accepts taken held⟩

/-- **A call returns, and makes progress if it accepts.** -/
theorem nextNodes_progress (valid : p.Valid) (start : FreeNodes pool free) (malloc : Nat → Bool) :
    ∃ said last pool', nextNodes malloc p pool = some (said, last, pool') ∧
      Progress p pool' said last := by
  have same : unread (compacted p) = unread p := valid.compacted.2
  obtain ⟨said, last, pool', -, runs, -, result⟩ := nextNodes_cases valid start malloc
  refine ⟨said, last, pool', runs, ?_⟩
  cases result with
  | waits => exact same
  | fails => exact same
  | @accepts _ value _ nodes taken held =>
    exact ⟨rfl, taken.advances, taken.inside, value, nodes, held, taken.within⟩

/-- After a call that accepts there are fewer unread bytes. -/
theorem Progress.shrinks (valid : p.Valid) {out : RespValueT} {last : RespParser}
    (progress : Progress p pool (.ok out) last) : (unread last).length < (unread p).length := by
  obtain ⟨isLast, advances, inside, -⟩ := progress
  have same : unread (compacted p) = unread p := valid.compacted.2
  have written : last.wPos = (compacted p).wPos := by rw [isLast]
  rw [← same, length_unread, length_unread]
  omega

end Call

end Zedis.Resp

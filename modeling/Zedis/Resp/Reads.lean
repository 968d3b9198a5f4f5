/-
**Which bytes of its buffer the parser reads.**

The functions of `src/resp_scan.c` and `src/resp_decode.c` once more, byte by byte, over a memory that
may not answer: a read that it does not answer is a fault, after which there is no result. `nextReads`
is `resp_parser_next` over a memory that has the bytes below `w_pos` and no others.

`nextReads_eq`: it never faults, and does what `nextNodes` does. Each scan stays below `w_pos` by its
own test; the end of a bulk string is computed from a number of the input, and is below `w_pos` because
`data_end + 2` does not wrap around.
-/

import Zedis.Lib.Scan
import Zedis.Resp.Chunks
import Zedis.Resp.Nodes

namespace Zedis.Resp

open Zedis.Lib Zedis.Arena

/-! ### The parser, byte by byte -/

section Reads

variable (read : Nat → Option UInt8)

/-- `resp__find_crlf`; `w` is `w_pos`. -/
def findCrlfReads (w start : Nat) : Option (Option Nat) :=
  scan (fun i => (read i).bind fun b => if b = 13 then (read (i + 1)).map (· == 10) else some false)
    (w - 1 - start) start

/-- `resp__parse_int`. -/
def parseIntReads (start stop : Nat) : Option (Option Int) :=
  if start ≥ stop then some none
  else
    (read start).bind fun first =>
      let neg := first == 45
      let i := if neg then start + 1 else start
      if i ≥ stop then some none
      else
        (read i).bind fun digit =>
          if isDigit digit = false then some none
          else (foldReads read digitStep (stop - i) i 0).map (Option.map fun value =>
            if neg then wrap64 (-value) else value)

/-- The token loop of `resp__parse_inline`. -/
def inlineLoopReads (malloc : Nat → Bool) (lineEnd : Nat) :
    Nat → Nat → NodeList → NodePool → Option (Verdict NodeList × NodePool)
  | 0, _, _, _ => none
  | fuel + 1, i, list, pool =>
    if i < lineEnd then
      (skipReads read isBlank (lineEnd - i) i).bind fun tok =>
        if tok ≥ lineEnd then some (.ok list, pool)
        else
          (skipReads read (fun b => !isBlank b) (lineEnd - tok) tok).bind fun stop =>
            match respNodeAlloc malloc pool with
            | (none, pool) => failWith .error pool list
            | (some node, pool) =>
              let pool := pool.write node
                { pool.mem node with type := .bulk, bulk := ⟨tok, stop - tok⟩ }
              let (list, pool) := respNodeAppend list pool node
              inlineLoopReads malloc lineEnd fuel stop list pool
    else some (.ok list, pool)

/-- The end of a line without its `\n`, and without a `\r` before that. -/
def lineEndReads (start lf : Nat) : Option Nat :=
  if lf > start then (read (lf - 1)).map fun b => if b = 13 then lf - 1 else lf else some lf

/-- `resp__parse_inline`. -/
def parseInlineReads (malloc : Nat → Bool) (w start : Nat) (pool : NodePool) :
    Option (Verdict (RespValueT × Nat) × NodePool) :=
  (scan (fun i => (read i).map (· == 10)) (w - start) start).bind fun found =>
    match found with
    | none => some (.needMore, pool)
    | some lf =>
      (lineEndReads read start lf).bind fun lineEnd =>
        (inlineLoopReads read malloc lineEnd (w + 1) start noNodes pool).map fun (verdict, pool) =>
          (verdict.map fun list => (arrayOut list, lf + 1), pool)

/-- The case `$` of `parse_value`, for the number in the line that ends at `crlf`. -/
def parseBulkReads (w crlf : Nat) (bulkLen : Int) : Option (Verdict (RespValue Slice × Nat)) :=
  if bulkLen < 0 then some (.ok (.null, crlf + 2))
  else
    let dataStart := crlf + 2
    let dataEnd := (dataStart + bulkLen.toNat) % sizeMod
    if (dataEnd + 2) % sizeMod > w then some .needMore
    else
      (read dataEnd).bind fun cr =>
        if cr ≠ 13 then some .error
        else (read (dataEnd + 1)).map fun lf =>
          if lf ≠ 10 then .error else .ok (.bulk ⟨dataStart, bulkLen.toNat⟩, (dataEnd + 2) % sizeMod)

/-- `parse_value`. -/
def parseValueReads (malloc : Nat → Bool) (w : Nat) :
    Nat → Nat → NodePool → Option (Verdict (RespValueT × Nat) × NodePool)
  | 0, _, _ => none
  | fuel + 1, pos, pool =>
    if pos ≥ w then some (.needMore, pool)
    else
      (read pos).bind fun typeByte =>
        let lineStart := pos + 1
        if isTypeByte typeByte = false then parseInlineReads read malloc w pos pool
        else
          (findCrlfReads read w lineStart).bind fun found =>
            match found with
            | none => some (.needMore, pool)
            | some crlf =>
              if typeByte = 43 then
                some (.ok (outOf (.simple ⟨lineStart, crlf - lineStart⟩), crlf + 2), pool)
              else if typeByte = 45 then
                some (.ok (outOf (.error ⟨lineStart, crlf - lineStart⟩), crlf + 2), pool)
              else
                (parseIntReads read lineStart crlf).bind fun number =>
                  match number with
                  | none => some (.error, pool)
                  | some value =>
                    if typeByte = 58 then some (.ok (outOf (.integer value), crlf + 2), pool)
                    else if typeByte = 36 then
                      (parseBulkReads read w crlf value).map fun verdict =>
                        (verdict.map fun (value, pos) => (outOf value, pos), pool)
                    else if value < 0 then some (.ok (outOf .null, crlf + 2), pool)
                    else parseArrayNodes malloc (parseValueReads malloc w fuel) value (crlf + 2) pool

end Reads

/-- The bytes of the buffer that are below `w_pos`. -/
def written (p : RespParser) (i : Nat) : Option UInt8 := if i < p.wPos then some (p.buf i) else none

/-- `resp__compact`. -/
def compactReads (p : RespParser) : Option RespParser :=
  if p.rPos = 0 then some p
  else
    let unread := p.wPos - p.rPos
    (readAll (written p) p.rPos unread).map fun moved =>
      { p with buf := store p.buf 0 moved, wPos := unread, rPos := 0 }

/-- `resp_parser_next`. -/
def nextReads (malloc : Nat → Bool) (p : RespParser) (pool : NodePool) :
    Option (Verdict RespValueT × RespParser × NodePool) :=
  (if p.rPos > p.bufCap / 2 then compactReads p else some p).bind fun p =>
    (parseValueReads (written p) malloc p.wPos (p.wPos + 1) p.rPos pool).map fun (verdict, pool) =>
      match verdict with
      | .ok (out, pos) => (.ok out, { p with rPos := pos }, pool)
      | .needMore => (.needMore, p, pool)
      | .error => (.error, p, pool)

/-! ### No read faults -/

section Faultless

variable {read : Nat → Option UInt8} {p : RespParser}

theorem findCrlfReads_eq (answers : Answers read p.buf p.wPos) (start : Nat) :
    findCrlfReads read p.wPos start = some (respFindCrlf p start) := by
  refine scan_eq fun i low high => ?_
  rw [answers i (by omega), Option.bind_some]
  by_cases cr : p.buf i = 13
  · rw [if_pos cr, answers (i + 1) (by omega), Option.map_some, cr]
    rfl
  · rw [if_neg cr, beq_false_of_ne cr]
    rfl

theorem parseIntReads_eq (answers : Answers read p.buf p.wPos) {start stop : Nat}
    (inside : stop ≤ p.wPos) : parseIntReads read start stop = some (respParseInt p.buf start stop) := by
  unfold parseIntReads respParseInt
  by_cases empty : start ≥ stop
  · rw [if_pos empty, if_pos empty]
  rw [if_neg empty, if_neg empty, answers start (by omega), Option.bind_some]
  dsimp only
  generalize (if (p.buf start == 45) = true then start + 1 else start) = i
  by_cases ended : i ≥ stop
  · rw [if_pos ended, if_pos (Or.inl ended)]
  rw [if_neg ended, answers i (by omega), Option.bind_some]
  by_cases other : isDigit (p.buf i) = false
  · rw [if_pos other, if_pos (Or.inr other)]
  · rw [if_neg other, if_neg (not_or.mpr ⟨ended, other⟩), foldReads_eq answers digitStep 0 (by omega),
      Option.map_some]

theorem skipReads_skipWhile (answers : Answers read p.buf p.wPos) (test : UInt8 → Bool) {i stop : Nat}
    (ordered : i ≤ stop) (inside : stop ≤ p.wPos) :
    skipReads read test (stop - i) i = some (skipWhile p.buf test stop i) :=
  skipReads_eq answers test (by omega)

theorem inlineLoopReads_eq (answers : Answers read p.buf p.wPos) (malloc : Nat → Bool) {lineEnd : Nat}
    (inside : lineEnd ≤ p.wPos) : ∀ (fuel i : Nat) (list : NodeList) (pool : NodePool),
    inlineLoopReads read malloc lineEnd fuel i list pool =
      inlineLoop malloc p.buf lineEnd fuel i list pool := by
  intro fuel
  induction fuel with
  | zero => exact fun _ _ _ => rfl
  | succ fuel ih =>
    intro i list pool
    rw [inlineLoopReads, inlineLoop]
    by_cases more : i < lineEnd
    · rw [if_pos more, if_pos more, skipReads_skipWhile answers isBlank more.le inside, Option.bind_some]
      dsimp only
      generalize skipWhile p.buf isBlank lineEnd i = tok
      by_cases blank : tok ≥ lineEnd
      · rw [if_pos blank, if_pos blank]
      · rw [if_neg blank, if_neg blank, skipReads_skipWhile answers _ (Nat.le_of_not_le blank) inside,
          Option.bind_some]
        obtain ⟨node, next⟩ := respNodeAlloc malloc pool
        cases node with
        | none => rfl
        | some node => exact ih _ _ _
    · rw [if_neg more, if_neg more]

theorem lineEndReads_eq (answers : Answers read p.buf p.wPos) {start lf : Nat} (inside : lf < p.wPos) :
    lineEndReads read start lf = some (if lf > start ∧ p.buf (lf - 1) = 13 then lf - 1 else lf) := by
  unfold lineEndReads
  by_cases some : lf > start
  · rw [if_pos some, answers (lf - 1) (by omega), Option.map_some]
    simp only [some, true_and]
  · rw [if_neg some, if_neg fun both => some both.1]

theorem parseInlineReads_eq (answers : Answers read p.buf p.wPos) (malloc : Nat → Bool) (start : Nat)
    (pool : NodePool) : parseInlineReads read malloc p.wPos start pool =
      parseInlineNodes malloc p start pool := by
  have found : scan (fun i => (read i).map (· == 10)) (p.wPos - start) start =
      some ((List.range' start (p.wPos - start)).find? fun i => p.buf i == 10) := by
    refine scan_eq fun i low high => ?_
    rw [answers i (by omega), Option.map_some]
  unfold parseInlineReads parseInlineNodes
  rw [found, Option.bind_some]
  cases line : (List.range' start (p.wPos - start)).find? fun i => p.buf i == 10 with
  | none => rfl
  | some lf =>
    have bounds := List.mem_range'_1.mp (List.mem_of_find?_eq_some line)
    have inside : lf < p.wPos := by omega
    dsimp only
    rw [lineEndReads_eq answers inside, Option.bind_some, inlineLoopReads_eq answers malloc]
    exact (lineEnd_bounds p.buf bounds.1).2.trans inside.le

/-- The two reads after a bulk string are of bytes that are there. -/
theorem parseBulkReads_eq (answers : Answers read p.buf p.wPos) (small : p.wPos < 2 ^ 63 - 1)
    {crlf : Nat} (inside : crlf + 2 ≤ p.wPos) {bulkLen : Int} (fits : bulkLen < 2 ^ 63) :
    parseBulkReads read p.wPos crlf bulkLen = some (parseBulk p crlf bulkLen) := by
  unfold parseBulkReads parseBulk
  by_cases neg : bulkLen < 0
  · rw [if_pos neg, if_pos neg]
  rw [if_neg neg, if_neg neg]
  dsimp only
  obtain ⟨noWrap, noWrap'⟩ := dataEnd_mod inside small fits
  rw [noWrap, noWrap']
  generalize crlf + 2 + bulkLen.toNat = dataEnd
  by_cases short : dataEnd + 2 > p.wPos
  · rw [if_pos short, if_pos short]
  rw [if_neg short, if_neg short, answers dataEnd (by omega), Option.bind_some]
  by_cases cr : p.buf dataEnd = 13
  · rw [if_neg (not_not.mpr cr), answers (dataEnd + 1) (by omega), Option.map_some]
    simp only [cr, ne_eq, not_true_eq_false, false_or]
  · rw [if_pos cr, if_pos (Or.inl cr)]

/-- **`parse_value` does not fault.** -/
theorem parseValueReads_eq (answers : Answers read p.buf p.wPos) (small : p.wPos < 2 ^ 63 - 1)
    (malloc : Nat → Bool) : ∀ (fuel pos : Nat) (pool : NodePool),
    parseValueReads read malloc p.wPos fuel pos pool = parseValueNodes malloc p fuel pos pool := by
  intro fuel
  induction fuel with
  | zero => exact fun _ _ => rfl
  | succ fuel ih =>
    intro pos pool
    have elements : parseValueReads read malloc p.wPos fuel = parseValueNodes malloc p fuel := by
      funext pos pool
      exact ih pos pool
    rw [parseValueReads, parseValueNodes, elements]
    by_cases ended : pos ≥ p.wPos
    · rw [if_pos ended, if_pos ended]
    rw [if_neg ended, if_neg ended, answers pos (by omega), Option.bind_some]
    dsimp only
    rw [parseInlineReads_eq answers, findCrlfReads_eq answers, Option.bind_some]
    by_cases inline : isTypeByte (p.buf pos) = false
    · rw [if_pos inline, if_pos inline]
    rw [if_neg inline, if_neg inline]
    cases found : respFindCrlf p (pos + 1) with
    | none => rfl
    | some crlf =>
      have below := (respFindCrlf_bounds found).2
      dsimp only
      rw [parseIntReads_eq answers (by omega), Option.bind_some]
      cases number : respParseInt p.buf (pos + 1) crlf with
      | none => rfl
      | some value =>
        have fits : value < 2 ^ 63 := readInt_lt ((respParseInt_eq _ _ _).symm.trans number)
        dsimp only
        rw [parseBulkReads_eq answers small below fits, Option.map_some]

end Faultless

theorem answers_written (p : RespParser) : Answers (written p) p.buf p.wPos := fun _ below => if_pos below

theorem compactReads_eq {p : RespParser} (ordered : p.rPos ≤ p.wPos) :
    compactReads p = some (respCompact p) := by
  unfold compactReads respCompact
  split
  · rfl
  · dsimp only
    rw [readAll_eq (answers_written p) (by omega), Option.map_some]

/-- **`resp_parser_next` reads no byte at or above `w_pos`**, whatever the buffer holds. -/
theorem nextReads_eq {p : RespParser} (valid : p.Valid) (malloc : Nat → Bool) (pool : NodePool) :
    nextReads malloc p pool = nextNodes malloc p pool := by
  have compacts : (if p.rPos > p.bufCap / 2 then compactReads p else some p) =
      some (if p.rPos > p.bufCap / 2 then respCompact p else p) := by
    rw [compactReads_eq valid.read]
    split
    · rfl
    · rfl
  have validQ := valid.compacted.1
  unfold nextReads nextNodes
  rw [compacts, Option.bind_some]
  generalize (if p.rPos > p.bufCap / 2 then respCompact p else p) = q at validQ
  dsimp only
  exact congrArg (Option.map _) (parseValueReads_eq (answers_written q)
    (validQ.written.trans_lt validQ.granted) malloc _ _ pool)

end Zedis.Resp

/-
**`parse_value` on a buffer reads what `decode` reads off a string.**

`window p pos` is the string of the bytes from `pos` to `w_pos`. `parseValue_simulates`: the parser at
`pos` says what `decodeAt` says of that string, its slices hold the decoded strings, and it stops where
the string that is left begins. The one place where it could differ is the end of a bulk string, which
is computed in `size_t` from a number of the input: with `w_pos < 2 ^ 63 - 1` it does not wrap around.
-/

import Zedis.Resp.Decode

namespace Zedis.Resp

open Zedis.Lib Zedis.Arena

/-- The bytes from `pos` on. -/
def window (p : RespParser) (pos : Nat) : Bytes := segment p.buf pos (p.wPos - pos)

theorem mapAll_eq_map {β γ : Type} (read : β → γ) (values : List (RespValue β)) :
    RespValue.mapAll read values = values.map (RespValue.map read) := by
  induction values with
  | nil => rfl
  | cons value values ih => rw [RespValue.mapAll, ih, List.map_cons]

theorem contents_array (buf : Nat → UInt8) (values : List (RespValue Slice)) :
    (RespValue.array values).contents buf = .array (values.map (RespValue.contents buf)) := by
  rw [RespValue.contents, RespValue.map, mapAll_eq_map]
  rfl

/-! ### Lines and numbers -/

section Lines

variable {p : RespParser} {start i : Nat}

theorem respFindCrlf_bounds (found : respFindCrlf p start = some i) : start ≤ i ∧ i + 2 ≤ p.wPos := by
  have inside := List.mem_range'_1.mp (List.mem_of_find?_eq_some found)
  omega

theorem window_cons (more : start < p.wPos) :
    window p start = p.buf start :: window p (start + 1) := by
  rw [window, window, show p.wPos - start = p.wPos - (start + 1) + 1 by omega, segment_succ]

theorem window_of_le (none : p.wPos ≤ start) : window p start = [] := by
  rw [window, Nat.sub_eq_zero_of_le none, segment_zero]

theorem cut_crlf_window (inside : start ≤ p.wPos) : cut crlf (window p start) =
    (respFindCrlf p start).map fun i => (segment p.buf start (i - start), window p (i + 2)) := by
  have law := cut_segment p.buf crlf (fun i => p.buf i == 13 && p.buf (i + 1) == 10) p.wPos
    (by decide) (fun i _ => ?_) (p.wPos - start) start (by omega)
  · rw [window, law, respFindCrlf, show p.wPos - start + 1 - crlf.length = p.wPos - 1 - start by
      rw [show crlf.length = 2 from rfl]; omega]
    rfl
  · rw [Bool.and_eq_true, beq_iff_eq, beq_iff_eq, show crlf.length = 2 from rfl, segment_succ,
      segment_succ, segment_zero, crlf]
    simp

theorem cut_lf_window (inside : start ≤ p.wPos) : cut [10] (window p start) =
    ((List.range' start (p.wPos - start)).find? fun i => p.buf i == 10).map fun i =>
      (segment p.buf start (i - start), window p (i + 1)) := by
  have law := cut_segment p.buf [10] (fun i => p.buf i == 10) p.wPos (by decide) (fun i _ => ?_)
    (p.wPos - start) start (by omega)
  · rw [window, law, List.length_singleton, Nat.add_sub_cancel]
    rfl
  · rw [beq_iff_eq, List.length_singleton, segment_succ, segment_zero]
    simp

theorem readDigits_segment (buf : Nat → UInt8) (neg : Bool) (i stop : Nat) :
    readDigits neg (segment buf i (stop - i)) =
      if i ≥ stop ∨ isDigit (buf i) = false then none
      else ((segment buf i (stop - i)).foldlM digitStep 0).map fun value =>
        if neg then wrap64 (-value) else value := by
  unfold readDigits
  by_cases none : i ≥ stop
  · rw [if_pos (Or.inl none), show stop - i = 0 by omega, segment_zero, if_pos rfl]
  · obtain ⟨n, length⟩ : ∃ n, stop - i = n + 1 := ⟨stop - i - 1, by omega⟩
    rw [length, segment_succ, if_neg (List.cons_ne_nil _ _)]
    by_cases digit : isDigit (buf i) = false
    · rw [if_pos (Or.inr digit), List.foldlM_cons, digitStep, digit]
      rfl
    · rw [if_neg (by rw [not_or]; exact ⟨none, digit⟩)]

theorem respParseInt_eq (buf : Nat → UInt8) (start stop : Nat) :
    respParseInt buf start stop = readInt (segment buf start (stop - start)) := by
  unfold respParseInt
  by_cases empty : start ≥ stop
  · rw [if_pos empty, show stop - start = 0 by omega, segment_zero]
    rfl
  · have first : segment buf start (stop - start) =
        buf start :: segment buf (start + 1) (stop - (start + 1)) := by
      rw [show stop - start = stop - (start + 1) + 1 by omega, segment_succ]
    rw [if_neg empty, first, readInt, ← first]
    by_cases neg : buf start = 45
    · rw [if_pos neg, readDigits_segment]
      simp only [neg, beq_self_eq_true, if_true]
    · rw [if_neg neg, readDigits_segment]
      simp only [beq_false_of_ne neg, Bool.false_eq_true, if_false]

theorem wrap64_range (n : Int) : -2 ^ 63 ≤ wrap64 n ∧ wrap64 n < 2 ^ 63 := by
  have low := Int.le_bmod (x := n) (m := 2 ^ 64) (by decide)
  have high := Int.bmod_lt (x := n) (m := 2 ^ 64) (by decide)
  unfold wrap64
  omega

theorem foldlM_digitStep_lt : ∀ (digits : Bytes) (value last : Int), value < 2 ^ 63 →
    digits.foldlM digitStep value = some last → last < 2 ^ 63
  | [], value, last, small, said => by
    cases said
    exact small
  | b :: digits, value, last, small, said => by
    rw [List.foldlM_cons] at said
    obtain ⟨next, step, rest⟩ := Option.bind_eq_some_iff.mp said
    refine foldlM_digitStep_lt digits next last ?_ rest
    unfold digitStep at step
    split at step
    · cases step
      exact (wrap64_range _).2
    · cases step

/-- A number fits into `int64_t`. -/
theorem readInt_lt {line : Bytes} {value : Int} (said : readInt line = some value) :
    value < 2 ^ 63 := by
  have digits : ∀ {neg digits}, readDigits neg digits = some value → value < 2 ^ 63 := by
    intro neg digits said
    unfold readDigits at said
    split at said
    · cases said
    · obtain ⟨last, fold, rfl⟩ := Option.map_eq_some_iff.mp said
      split
      · exact (wrap64_range _).2
      · exact foldlM_digitStep_lt _ 0 last (by decide) fold
  cases line with
  | nil => cases said
  | cons b rest =>
    rw [readInt] at said
    split at said
    · exact digits said
    · exact digits said

end Lines

/-! ### Inline commands -/

section Inline

variable {i stop : Nat}

/-- The skipped bytes, and those after them. -/
theorem skipWhile_spec (buf : Nat → UInt8) (test : UInt8 → Bool) (inside : i ≤ stop) :
    i ≤ skipWhile buf test stop i ∧ skipWhile buf test stop i ≤ stop ∧
      segment buf i (skipWhile buf test stop i - i) = (segment buf i (stop - i)).takeWhile test ∧
      segment buf (skipWhile buf test stop i) (stop - skipWhile buf test stop i) =
        (segment buf i (stop - i)).dropWhile test := by
  have short : ((segment buf i (stop - i)).takeWhile test).length ≤ stop - i := by
    have fits := (List.takeWhile_prefix test (l := segment buf i (stop - i))).length_le
    rwa [length_segment] at fits
  unfold skipWhile
  refine ⟨by omega, by omega, ?_, ?_⟩
  · rw [Nat.add_sub_cancel_left, ← take_segment buf i short]
    exact (List.prefix_iff_eq_take.mp (List.takeWhile_prefix test)).symm
  · rw [Nat.sub_add_eq, ← drop_segment]
    have split := @List.drop_left _ ((segment buf i (stop - i)).takeWhile test)
      ((segment buf i (stop - i)).dropWhile test)
    rwa [List.takeWhile_append_dropWhile] at split

/-- **The tokens are the words of the line.** -/
theorem inlineTokens_eq (buf : Nat → UInt8) (stop : Nat) : ∀ fuel i, i ≤ stop → stop - i < fuel →
    ∃ slices, inlineTokens buf stop fuel i = some slices ∧
      slices.map (readSlice buf) = words isBlank (segment buf i (stop - i)) := by
  intro fuel
  induction fuel with
  | zero => exact fun i _ enough => absurd enough (Nat.not_lt_zero _)
  | succ fuel ih =>
    intro i inside enough
    rw [inlineTokens]
    by_cases more : i < stop
    · obtain ⟨above, below, -, rest⟩ := skipWhile_spec buf isBlank inside
      rw [if_pos more, ← words_dropWhile, ← rest]
      generalize skipWhile buf isBlank stop i = tok at above below rest
      by_cases done : tok ≥ stop
      · refine ⟨[], by simp only [if_pos done], ?_⟩
        rw [show stop - tok = 0 by omega, segment_zero, words_nil]
        rfl
      · -- the token starts with a byte that is not blank
        have visible : (segment buf tok (stop - tok)).takeWhile (fun b => !isBlank b) ≠ [] := by
          have head := List.head_dropWhile_not isBlank (l := segment buf i (stop - i))
          obtain ⟨n, length⟩ : ∃ n, stop - tok = n + 1 := ⟨stop - tok - 1, by omega⟩
          rw [length, segment_succ] at rest ⊢
          simp only [← rest, List.head_cons] at head
          rw [List.takeWhile_cons_of_pos (by rw [head (List.cons_ne_nil _ _)]; rfl)]
          exact List.cons_ne_nil _ _
        obtain ⟨above', below', token, rest'⟩ :=
          skipWhile_spec buf (fun b => !isBlank b) (Nat.le_of_not_le done)
        generalize ends : skipWhile buf (fun b => !isBlank b) stop tok = last at above' below' token rest'
        have longer : tok < last := by
          by_contra none
          rw [show last - tok = 0 by omega, segment_zero] at token
          exact visible token.symm
        obtain ⟨slices, tokens, read⟩ := ih last below' (by omega)
        refine ⟨⟨tok, last - tok⟩ :: slices, ?_, ?_⟩
        · simp only [if_neg done, ends, tokens, Option.map_some]
        · rw [List.map_cons, read, words_takeWhile visible, ← rest', ← token]
          rfl
    · refine ⟨[], if_neg more, ?_⟩
      rw [show stop - i = 0 by omega, segment_zero, words_nil]
      rfl

theorem getLast?_segment (buf : Nat → UInt8) (start n : Nat) :
    (segment buf start (n + 1)).getLast? = some (buf (start + n)) := by
  rw [segment_add, segment_succ, segment_zero, List.getLast?_append]
  rfl

theorem chomp_segment (buf : Nat → UInt8) {start lf : Nat} (above : start ≤ lf) :
    chomp (segment buf start (lf - start)) = segment buf start
      ((if lf > start ∧ buf (lf - 1) = 13 then lf - 1 else lf) - start) := by
  unfold chomp
  by_cases empty : lf = start
  · rw [empty, Nat.sub_self, segment_zero, if_neg nofun, if_neg (by omega), Nat.sub_self, segment_zero]
  · obtain ⟨n, length⟩ : ∃ n, lf - start = n + 1 := ⟨lf - start - 1, by omega⟩
    rw [length, getLast?_segment, show start + n = lf - 1 by omega]
    by_cases cr : buf (lf - 1) = 13
    · rw [if_pos (congrArg some cr), if_pos ⟨by omega, cr⟩, List.dropLast_eq_take, length_segment,
        take_segment buf start (by omega)]
      congr 1
      omega
    · rw [if_neg (fun same => cr (Option.some.inj same)), if_neg (fun both => cr both.2), length]

/-- Where the line of an inline command ends, without its `\r`. -/
theorem lineEnd_bounds (buf : Nat → UInt8) {start lf : Nat} (above : start ≤ lf) :
    start ≤ (if lf > start ∧ buf (lf - 1) = 13 then lf - 1 else lf) ∧
      (if lf > start ∧ buf (lf - 1) = 13 then lf - 1 else lf) ≤ lf := by
  split
  · omega
  · omega

/-- `resp__parse_inline` and its string. -/
theorem respParseInline_eq {p : RespParser} {start : Nat} (inside : start ≤ p.wPos) :
    some (decodeInline (window p start)) = (respParseInline p start).map
      (Verdict.map fun result => (result.1.contents p.buf, window p result.2)) ∧
    ∀ value next, respParseInline p start = some (.ok (value, next)) → next ≤ p.wPos := by
  unfold decodeInline respParseInline
  rw [cut_lf_window inside]
  cases found : (List.range' start (p.wPos - start)).find? fun i => p.buf i == 10 with
  | none => exact ⟨rfl, nofun⟩
  | some lf =>
    have bounds := List.mem_range'_1.mp (List.mem_of_find?_eq_some found)
    simp only [Option.map_some]
    have shorter := lineEnd_bounds p.buf bounds.1
    generalize ends : (if lf > start ∧ p.buf (lf - 1) = 13 then lf - 1 else lf) = lineEnd at shorter
    obtain ⟨slices, tokens, read⟩ := inlineTokens_eq p.buf lineEnd (p.wPos + 1) start shorter.1
      (by omega)
    rw [tokens, chomp_segment p.buf bounds.1, ends, ← read]
    refine ⟨?_, fun value next said => ?_⟩
    · simp only [Option.map_some, Verdict.map, contents_array, List.map_map]
      rfl
    · cases said
      omega

end Inline

/-! ### Values -/

section Values

variable {p : RespParser}

/-- The end of a bulk string is a `size_t`: it does not wrap around. -/
theorem dataEnd_mod {crlfPos w : Nat} {bulkLen : Int} (inside : crlfPos + 2 ≤ w)
    (small : w < 2 ^ 63 - 1) (fits : bulkLen < 2 ^ 63) :
    (crlfPos + 2 + bulkLen.toNat) % sizeMod = crlfPos + 2 + bulkLen.toNat ∧
      (crlfPos + 2 + bulkLen.toNat + 2) % sizeMod = crlfPos + 2 + bulkLen.toNat + 2 :=
  ⟨Nat.mod_eq_of_lt (by unfold sizeMod; omega), Nat.mod_eq_of_lt (by unfold sizeMod; omega)⟩

/-- The case of a bulk string. -/
theorem parseBulk_eq {crlfPos : Nat} {bulkLen : Int} (inside : crlfPos + 2 ≤ p.wPos)
    (small : p.wPos < 2 ^ 63 - 1) (fits : bulkLen < 2 ^ 63) :
    decodeBulk bulkLen (window p (crlfPos + 2)) = (parseBulk p crlfPos bulkLen).map
      (fun result => (result.1.contents p.buf, window p result.2)) ∧
    ∀ value next, parseBulk p crlfPos bulkLen = .ok (value, next) → next ≤ p.wPos := by
  unfold decodeBulk parseBulk
  by_cases neg : bulkLen < 0
  · rw [if_pos neg, if_pos neg]
    refine ⟨rfl, fun value next said => ?_⟩
    cases said
    exact inside
  · rw [if_neg neg, if_neg neg]
    simp only
    obtain ⟨noWrap, noWrap'⟩ := dataEnd_mod inside small fits
    rw [noWrap, noWrap', window, length_segment]
    generalize bulkLen.toNat = n
    by_cases short : p.wPos - (crlfPos + 2) < n + 2
    · rw [if_pos short, if_pos (show crlfPos + 2 + n + 2 > p.wPos by omega)]
      exact ⟨rfl, nofun⟩
    · rw [if_neg short, if_neg (show ¬ crlfPos + 2 + n + 2 > p.wPos by omega), drop_segment,
        take_segment _ _ (by omega), take_segment _ _ (by omega), drop_segment, segment_succ,
        segment_succ, segment_zero]
      by_cases closed : p.buf (crlfPos + 2 + n) = 13 ∧ p.buf (crlfPos + 2 + n + 1) = 10
      · rw [if_pos (by rw [closed.1, closed.2]; rfl),
          if_neg (by rw [closed.1, closed.2]; simp)]
        refine ⟨?_, fun value next said => ?_⟩
        · rw [← Nat.add_assoc, Nat.sub_sub, ← Nat.add_assoc]
          rfl
        · cases said
          omega
      · rw [if_neg (fun same => closed (by simpa [crlf] using same)),
          if_pos (by rw [← not_and_or]; exact closed)]
        exact ⟨rfl, nofun⟩

/-- What the parser says at a position, against what the decoder says of the string there. -/
def Agrees (p : RespParser) (parsed : Option (Verdict (RespValue Slice × Nat)))
    (decoded : Option (Verdict (RespValue Bytes × Bytes))) : Prop :=
  decoded = parsed.map (Verdict.map fun result => (result.1.contents p.buf, window p result.2)) ∧
    ∀ value next, parsed = some (.ok (value, next)) → next ≤ p.wPos

theorem agrees_ok (value : RespValue Slice) {next : Nat} (inside : next ≤ p.wPos) :
    Agrees p (some (.ok (value, next))) (some (.ok (value.contents p.buf, window p next))) := by
  refine ⟨rfl, fun value next said => ?_⟩
  cases said
  exact inside

theorem agrees_needMore : Agrees p (some .needMore) (some .needMore) := by
  refine ⟨rfl, fun value next said => ?_⟩
  cases said

theorem agrees_error : Agrees p (some .error) (some .error) := by
  refine ⟨rfl, fun value next said => ?_⟩
  cases said

/-- The case of an array, given its elements. -/
theorem parseArray_agrees {step : Nat → Option (Verdict (RespValue Slice × Nat))}
    {decode : Bytes → Option (Verdict (RespValue Bytes × Bytes))}
    (elements : Simulates (window p) (RespValue.contents p.buf) (· ≤ p.wPos) step decode)
    (count : Int) {pos : Nat} (inside : pos ≤ p.wPos) :
    Agrees p (parseArray step count pos) ((times decode count.toNat (window p pos)).map
      (Verdict.map fun result => (.array result.1, result.2))) := by
  have repeated := elements.times count.toNat
  refine ⟨?_, fun value next said => ?_⟩
  · rw [repeated.step _ inside, parseArray, Option.map_map, Option.map_map]
    congr 1
    funext verdict
    cases verdict with
    | needMore => rfl
    | error => rfl
    | ok result => exact congrArg (fun v => Verdict.ok (v, _)) (contents_array _ _).symm
  · obtain ⟨verdict, parsed, same⟩ := Option.map_eq_some_iff.mp said
    cases verdict with
    | needMore => cases same
    | error => cases same
    | ok result =>
      cases same
      exact repeated.kept _ _ _ inside parsed

/-- The case of a line that begins with a type byte. -/
theorem parseLine_agrees (small : p.wPos < 2 ^ 63 - 1)
    {step : Nat → Option (Verdict (RespValue Slice × Nat))}
    {decode : Bytes → Option (Verdict (RespValue Bytes × Bytes))}
    (elements : Simulates (window p) (RespValue.contents p.buf) (· ≤ p.wPos) step decode)
    (typeByte : UInt8) (start : Nat) {stop : Nat} (below : stop + 2 ≤ p.wPos) :
    Agrees p
      (if typeByte = 43 then some (.ok (.simple ⟨start, stop - start⟩, stop + 2))
        else if typeByte = 45 then some (.ok (.error ⟨start, stop - start⟩, stop + 2))
        else
          match respParseInt p.buf start stop with
          | none => some .error
          | some value =>
            if typeByte = 58 then some (.ok (.integer value, stop + 2))
            else if typeByte = 36 then some (parseBulk p stop value)
            else if value < 0 then some (.ok (.null, stop + 2))
            else parseArray step value (stop + 2))
      (decodeLine decode typeByte (segment p.buf start (stop - start)) (window p (stop + 2))) := by
  simp only [decodeLine, respParseInt_eq]
  by_cases isSimple : typeByte = 43
  · rw [if_pos isSimple, if_pos isSimple]
    exact agrees_ok _ below
  rw [if_neg isSimple, if_neg isSimple]
  by_cases isError : typeByte = 45
  · rw [if_pos isError, if_pos isError]
    exact agrees_ok _ below
  rw [if_neg isError, if_neg isError]
  cases number : readInt (segment p.buf start (stop - start)) with
  | none => exact agrees_error
  | some value =>
    simp only
    by_cases isInteger : typeByte = 58
    · rw [if_pos isInteger, if_pos isInteger]
      exact agrees_ok (.integer value) below
    rw [if_neg isInteger, if_neg isInteger]
    by_cases isBulk : typeByte = 36
    · rw [if_pos isBulk, if_pos isBulk]
      obtain ⟨same, kept⟩ := parseBulk_eq below small (readInt_lt number)
      exact ⟨congrArg some same, fun value next said => kept value next (Option.some.inj said)⟩
    rw [if_neg isBulk, if_neg isBulk]
    by_cases neg : value < 0
    · rw [if_pos neg, if_pos neg]
      exact agrees_ok .null below
    rw [if_neg neg, if_neg neg]
    exact parseArray_agrees elements value below

/-- **The parser at a position reads what its string reads.** -/
theorem parseValue_simulates (small : p.wPos < 2 ^ 63 - 1) (fuel : Nat) :
    Simulates (window p) (RespValue.contents p.buf) (· ≤ p.wPos) (parseValue p fuel)
      (decodeAt fuel) := by
  induction fuel with
  | zero =>
    refine ⟨fun _ _ => rfl, fun pos value next _ said => ?_⟩
    cases said
  | succ fuel ih =>
    suffices both : ∀ pos ≤ p.wPos,
        Agrees p (parseValue p (fuel + 1) pos) (decodeAt (fuel + 1) (window p pos)) from
      ⟨fun pos inside => (both pos inside).1,
        fun pos value next inside => (both pos inside).2 value next⟩
    intro pos inside
    rw [parseValue]
    by_cases done : pos ≥ p.wPos
    · rw [if_pos done, window_of_le done]
      exact agrees_needMore
    · have unread := window_cons (Nat.lt_of_not_le done)
      rw [if_neg done, unread, decodeAt]
      simp only
      by_cases inline : isTypeByte (p.buf pos) = false
      · rw [if_pos inline, if_pos inline, ← unread]
        exact respParseInline_eq inside
      · rw [if_neg inline, if_neg inline, cut_crlf_window (by omega)]
        cases found : respFindCrlf p (pos + 1) with
        | none => exact agrees_needMore
        | some crlfPos =>
          exact parseLine_agrees small ih (p.buf pos) (pos + 1) (respFindCrlf_bounds found).2

end Values

end Zedis.Resp

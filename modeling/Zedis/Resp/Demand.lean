/-
**Which bytes make the parser ask for a node.**

A node is needed for each element of an array: the first one as soon as the line of a non-empty inline
command, or the header of a non-empty array, is complete (`needsNode`). Without one the call leaves the
nodes as they are; with one, and no free node, it asks the slab or `malloc` for one, whatever it says in
the end (`nextNodes_demand`). No call makes the number of requests smaller.
-/

import Zedis.Resp.Refined

namespace Zedis.Resp

open Zedis.Lib

/-- The first element of an array is parsed: the bytes start with the line of an inline command that has
a word, or with the header of an array that announces an element. -/
def needsNode : Bytes → Bool
  | [] => false
  | typeByte :: u =>
    if isTypeByte typeByte = false then
      (cut [10] (typeByte :: u)).any fun parts => !(words isBlank (chomp parts.1)).isEmpty
    else typeByte = 42 && (cut crlf u).any fun parts => (readInt parts.1).any (0 < ·)

/-! ### One call -/

section Call

variable {malloc : Nat → Bool} {p : RespParser} {pool pool' : NodePool}

/-- A type byte that is none of the other four starts an array. -/
theorem eq_array_of_isTypeByte {typeByte : UInt8} (typed : ¬ isTypeByte typeByte = false)
    (notSimple : typeByte ≠ 43) (notError : typeByte ≠ 45) (notInteger : typeByte ≠ 58)
    (notBulk : typeByte ≠ 36) : typeByte = 42 := by
  by_contra other
  refine typed ?_
  rw [isTypeByte, beq_false_of_ne notSimple, beq_false_of_ne notError, beq_false_of_ne notInteger,
    beq_false_of_ne notBulk, beq_false_of_ne other]
  rfl

/-- The number of elements in the header of an array. -/
def announced (p : RespParser) (pos : Nat) : Option Int :=
  if p.buf pos = 42 then
    (respFindCrlf p (pos + 1)).bind fun crlfPos => respParseInt p.buf (pos + 1) crlfPos
  else none

/-- **What a call does to the nodes**: nothing, what an inline command does, or what the elements of an
array do. -/
theorem parseValueNodes_cases {fuel pos : Nat} {said : Verdict (RespValueT × Nat)}
    (runs : parseValueNodes malloc p (fuel + 1) pos pool = some (said, pool')) :
    pool' = pool ∧ (pos < p.wPos → ¬ isTypeByte (p.buf pos) = false ∧
        ∀ n, announced p pos = some n → n < 0) ∨
      pos < p.wPos ∧ isTypeByte (p.buf pos) = false ∧
        parseInlineNodes malloc p pos pool = some (said, pool') ∨
      pos < p.wPos ∧ ¬ isTypeByte (p.buf pos) = false ∧ ∃ n crlfPos verdict, announced p pos = some n ∧
        respFindCrlf p (pos + 1) = some crlfPos ∧ 0 ≤ n ∧
        arrayLoop malloc (parseValueNodes malloc p fuel) n.toNat (crlfPos + 2) noNodes pool =
          some (verdict, pool') ∧ said = verdict.map fun result => (arrayOut result.1, result.2) := by
  rw [parseValueNodes] at runs
  by_cases done : pos ≥ p.wPos
  · rw [if_pos done] at runs
    cases runs
    exact Or.inl ⟨rfl, fun more => absurd more (Nat.not_lt.mpr done)⟩
  rw [if_neg done] at runs
  dsimp only at runs
  by_cases inline : isTypeByte (p.buf pos) = false
  · rw [if_pos inline] at runs
    exact Or.inr (Or.inl ⟨Nat.lt_of_not_le done, inline, runs⟩)
  rw [if_neg inline] at runs
  have nothing : ∀ {verdict : Verdict (RespValueT × Nat)},
      (∀ n, announced p pos = some n → n < 0) → some (verdict, pool) = some (said, pool') →
      pool' = pool ∧ (pos < p.wPos → ¬ isTypeByte (p.buf pos) = false ∧
        ∀ n, announced p pos = some n → n < 0) := by
    intro verdict none returned
    cases returned
    exact ⟨rfl, fun _ => ⟨inline, none⟩⟩
  have other : ∀ {b : UInt8}, p.buf pos = b → b ≠ 42 → ∀ n, announced p pos = some n → n < 0 := by
    intro b isByte notArray n header
    rw [announced, isByte, if_neg notArray] at header
    cases header
  cases found : respFindCrlf p (pos + 1) with
  | none =>
    rw [found] at runs
    refine Or.inl (nothing (fun n header => ?_) runs)
    rw [announced, found, Option.bind_none, ite_self] at header
    cases header
  | some crlfPos =>
    have header : announced p pos =
        if p.buf pos = 42 then respParseInt p.buf (pos + 1) crlfPos else none := by
      rw [announced, found, Option.bind_some]
    rw [found] at runs
    dsimp only at runs
    split at runs
    · rename_i isSimple
      exact Or.inl (nothing (other isSimple (by decide)) runs)
    rename_i notSimple
    split at runs
    · rename_i isError
      exact Or.inl (nothing (other isError (by decide)) runs)
    rename_i notError
    cases number : respParseInt p.buf (pos + 1) crlfPos with
    | none =>
      rw [number] at runs header
      refine Or.inl (nothing (fun n announces => ?_) runs)
      rw [header, ite_self] at announces
      cases announces
    | some value =>
      rw [number] at runs header
      dsimp only at runs
      split at runs
      · rename_i isInteger
        exact Or.inl (nothing (other isInteger (by decide)) runs)
      rename_i notInteger
      split at runs
      · rename_i isBulk
        exact Or.inl (nothing (other isBulk (by decide)) runs)
      rename_i notBulk
      rw [if_pos (eq_array_of_isTypeByte inline notSimple notError notInteger notBulk)] at header
      split at runs
      · rename_i negative
        refine Or.inl (nothing (fun n announces => ?_) runs)
        cases header.symm.trans announces
        exact negative
      · rename_i nonneg
        obtain ⟨⟨verdict, last⟩, looped, same⟩ := Option.map_eq_some_iff.mp runs
        cases same
        exact Or.inr (Or.inr ⟨Nat.lt_of_not_le done, inline, value, crlfPos, verdict, header, rfl,
          Int.not_lt.mp nonneg, looped, rfl⟩)

theorem needsNode_window {pos : Nat} (more : pos < p.wPos)
    (typed : ¬ isTypeByte (p.buf pos) = false) :
    needsNode (window p pos) = (announced p pos).any (0 < ·) := by
  rw [window_cons more, needsNode, if_neg typed, cut_crlf_window more, announced]
  by_cases isArray : p.buf pos = 42
  · rw [if_pos isArray, decide_eq_true isArray, Bool.true_and]
    cases respFindCrlf p (pos + 1) with
    | none => rfl
    | some crlfPos =>
      rw [Option.map_some, Option.any_some, Option.bind_some, respParseInt_eq]
  · rw [if_neg isArray, decide_eq_false isArray, Bool.false_and, Option.any_none]

end Call

/-! ### The requests -/

section Asked

variable {malloc : Nat → Bool} {pool pool' : NodePool}

/-- A request is made where there is no free node. -/
theorem respNodeAlloc_asked (malloc : Nat → Bool) (pool : NodePool) :
    pool.asked ≤ (respNodeAlloc malloc pool).2.asked ∧
      (pool.freeList = none → pool.asked < (respNodeAlloc malloc pool).2.asked) := by
  unfold respNodeAlloc
  cases head : pool.freeList with
  | some node => exact ⟨Nat.le_refl _, nofun⟩
  | none =>
    dsimp only
    split
    · exact ⟨Nat.le_succ _, fun _ => Nat.lt_succ_self _⟩
    · exact ⟨Nat.le_succ _, fun _ => Nat.lt_succ_self _⟩

theorem releaseLoop_asked : ∀ (fuel : Nat) {pool pool' : NodePool} {head : Option Nat},
    releaseLoop fuel pool head = some pool' → pool'.asked = pool.asked := by
  intro fuel
  induction fuel with
  | zero => exact nofun
  | succ fuel ih =>
    intro pool pool' head released
    cases head with
    | none =>
      cases released
      rfl
    | some head =>
      obtain ⟨middle, children, rest⟩ := Option.bind_eq_some_iff.mp released
      have later := ih rest
      change pool'.asked = middle.asked at later
      refine later.trans ?_
      unfold releaseChildren at children
      split at children
      · cases children
        rfl
      · obtain ⟨inner, below, rfl⟩ := Option.map_eq_some_iff.mp children
        have same := ih below
        exact same

theorem failWith_asked {α : Type} {status said : Verdict α} {list : NodeList}
    (fails : failWith status pool list = some (said, pool')) : pool'.asked = pool.asked := by
  obtain ⟨released, release, same⟩ := Option.map_eq_some_iff.mp fails
  cases same
  exact releaseLoop_asked _ release

theorem respNodeAppend_asked (list : NodeList) (pool : NodePool) (node : Nat) :
    (respNodeAppend list pool node).2.asked = pool.asked := by
  unfold respNodeAppend
  dsimp only
  split
  · rfl
  · rfl

theorem inlineLoop_asked (malloc : Nat → Bool) (buf : Nat → UInt8) (lineEnd : Nat) :
    ∀ {fuel i : Nat} {list : NodeList} {pool pool' : NodePool} {said : Verdict NodeList},
      inlineLoop malloc buf lineEnd fuel i list pool = some (said, pool') →
      pool.asked ≤ pool'.asked ∧
        (i < lineEnd → skipWhile buf isBlank lineEnd i < lineEnd → pool.freeList = none →
          pool.asked < pool'.asked) := by
  intro fuel
  induction fuel with
  | zero => exact nofun
  | succ fuel ih =>
    intro i list pool pool' said runs
    rw [inlineLoop] at runs
    split at runs
    · dsimp only at runs
      split at runs
      · rename_i none
        cases runs
        exact ⟨Nat.le_refl _, fun _ more => absurd more (Nat.not_lt.mpr none)⟩
      · have asked := respNodeAlloc_asked malloc pool
        suffices later : (respNodeAlloc malloc pool).2.asked ≤ pool'.asked from
          ⟨asked.1.trans later, fun _ _ empty => (asked.2 empty).trans_le later⟩
        generalize respNodeAlloc malloc pool = allocated at runs
        obtain ⟨node, next⟩ := allocated
        cases node with
        | none => exact (failWith_asked runs).ge
        | some node =>
          have rest := (ih runs).1
          rw [respNodeAppend_asked] at rest
          exact rest
    · rename_i none
      cases runs
      exact ⟨Nat.le_refl _, fun more => absurd more none⟩

theorem arrayLoop_asked {parse : Nat → NodePool → Option (Verdict (RespValueT × Nat) × NodePool)}
    (each : ∀ {pos pool said pool'}, parse pos pool = some (said, pool') → pool.asked ≤ pool'.asked) :
    ∀ {n pos : Nat} {list : NodeList} {pool pool' : NodePool} {said : Verdict (NodeList × Nat)},
      arrayLoop malloc parse n pos list pool = some (said, pool') →
      pool.asked ≤ pool'.asked ∧ (0 < n → pool.freeList = none → pool.asked < pool'.asked) := by
  intro n
  induction n with
  | zero =>
    intro pos list pool pool' said runs
    cases runs
    exact ⟨Nat.le_refl _, nofun⟩
  | succ n ih =>
    intro pos list pool pool' said runs
    have asked := respNodeAlloc_asked malloc pool
    suffices later : (respNodeAlloc malloc pool).2.asked ≤ pool'.asked from
      ⟨asked.1.trans later, fun _ empty => (asked.2 empty).trans_le later⟩
    rw [arrayLoop] at runs
    generalize respNodeAlloc malloc pool = allocated at runs
    obtain ⟨node, next⟩ := allocated
    cases node with
    | none => exact (failWith_asked runs).ge
    | some child =>
      obtain ⟨⟨verdict, middle⟩, parsed, runs⟩ := Option.bind_eq_some_iff.mp runs
      have inner := each parsed
      cases verdict with
      | needMore => exact inner.trans (failWith_asked runs).ge
      | error => exact inner.trans (failWith_asked runs).ge
      | ok result =>
        have rest : (respNodeAppend list (middle.write child
            (fillNode (middle.mem child) result.1)) child).2.asked ≤ pool'.asked := (ih runs).1
        rw [respNodeAppend_asked] at rest
        exact inner.trans rest

theorem parseInlineNodes_asked {p : RespParser} {start : Nat} {said : Verdict (RespValueT × Nat)}
    (runs : parseInlineNodes malloc p start pool = some (said, pool')) : pool.asked ≤ pool'.asked := by
  unfold parseInlineNodes at runs
  split at runs
  · cases runs
    exact Nat.le_refl _
  · obtain ⟨⟨verdict, last⟩, looped, same⟩ := Option.map_eq_some_iff.mp runs
    cases same
    exact (inlineLoop_asked malloc _ _ looped).1

theorem parseValueNodes_asked (malloc : Nat → Bool) (p : RespParser) :
    ∀ {fuel pos : Nat} {pool : NodePool} {said : Verdict (RespValueT × Nat)} {pool' : NodePool},
      parseValueNodes malloc p fuel pos pool = some (said, pool') → pool.asked ≤ pool'.asked := by
  intro fuel
  induction fuel with
  | zero => exact nofun
  | succ fuel ih =>
    intro pos pool said pool' runs
    rcases parseValueNodes_cases runs with
      ⟨rfl, -⟩ | ⟨-, -, inline⟩ | ⟨-, -, n, crlfPos, verdict, -, -, -, looped, -⟩
    · exact Nat.le_refl _
    · exact parseInlineNodes_asked inline
    · exact (arrayLoop_asked ih looped).1

end Asked

/-! ### The demand -/

section Demand

variable {malloc : Nat → Bool} {p : RespParser} {pool pool' : NodePool}

/-- Nothing is taken, or there is a request unless a node is free. -/
def Demands (needs : Bool) (pool pool' : NodePool) : Prop :=
  (needs = false → pool' = pool) ∧ (needs = true → pool.freeList = none → pool.asked < pool'.asked)

theorem demands_none (pool : NodePool) : Demands false pool pool :=
  ⟨fun _ => rfl, nofun⟩

/-- There is a token exactly if there is a word. -/
theorem words_isEmpty_segment (buf : Nat → UInt8) {i stop : Nat} (inside : i ≤ stop) :
    (words isBlank (segment buf i (stop - i))).isEmpty =
      !decide (i < stop ∧ skipWhile buf isBlank stop i < stop) := by
  obtain ⟨slices, tokens, read⟩ := inlineTokens_eq buf stop (stop - i + 1) i inside (Nat.lt_succ_self _)
  rw [inlineTokens] at tokens
  by_cases more : i < stop
  · rw [if_pos more] at tokens
    by_cases none : skipWhile buf isBlank stop i ≥ stop
    · simp only [if_pos none] at tokens
      cases tokens
      rw [← read, decide_eq_false fun both => absurd both.2 (Nat.not_lt.mpr none)]
      rfl
    · simp only [if_neg none] at tokens
      obtain ⟨rest, -, rfl⟩ := Option.map_eq_some_iff.mp tokens
      rw [← read, decide_eq_true ⟨more, Nat.lt_of_not_le none⟩]
      rfl
  · rw [if_neg more] at tokens
    cases tokens
    rw [← read, decide_eq_false fun both => absurd both.1 more]
    rfl

theorem parseInlineNodes_demands {start : Nat} (inside : start ≤ p.wPos)
    {said : Verdict (RespValueT × Nat)}
    (runs : parseInlineNodes malloc p start pool = some (said, pool')) :
    Demands ((cut [10] (window p start)).any fun parts => !(words isBlank (chomp parts.1)).isEmpty)
      pool pool' := by
  rw [cut_lf_window inside]
  unfold parseInlineNodes at runs
  cases found : (List.range' start (p.wPos - start)).find? fun i => p.buf i == 10 with
  | none =>
    rw [found] at runs
    cases runs
    exact demands_none pool
  | some lf =>
    have bounds := List.mem_range'_1.mp (List.mem_of_find?_eq_some found)
    rw [found] at runs
    dsimp only at runs
    rw [Option.map_some, Option.any_some]
    dsimp only
    rw [chomp_segment p.buf bounds.1]
    have shorter := lineEnd_bounds p.buf bounds.1
    generalize (if lf > start ∧ p.buf (lf - 1) = 13 then lf - 1 else lf) = lineEnd at runs shorter ⊢
    rw [words_isEmpty_segment p.buf shorter.1, Bool.not_not]
    obtain ⟨⟨verdict, last⟩, looped, same⟩ := Option.map_eq_some_iff.mp runs
    cases same
    refine ⟨fun none => ?_, fun more empty => ?_⟩
    · have none := of_decide_eq_false none
      rw [inlineLoop] at looped
      split at looped
      · rename_i before
        dsimp only at looped
        rw [if_pos (Nat.not_lt.mp fun more => none ⟨before, more⟩)] at looped
        cases looped
        rfl
      · cases looped
        rfl
    · obtain ⟨before, more⟩ := of_decide_eq_true more
      exact (inlineLoop_asked malloc p.buf lineEnd looped).2 before more empty

/-- **The demand of a value.** -/
theorem parseValueNodes_demands {fuel pos : Nat} (inside : pos ≤ p.wPos)
    {said : Verdict (RespValueT × Nat)}
    (runs : parseValueNodes malloc p (fuel + 1) pos pool = some (said, pool')) :
    Demands (needsNode (window p pos)) pool pool' := by
  rcases parseValueNodes_cases runs with
    ⟨rfl, header⟩ | ⟨more, inline, runs⟩ | ⟨more, typed, n, crlfPos, verdict, header, -, nonneg, looped, -⟩
  · have none : needsNode (window p pos) = false := by
      by_cases more : pos < p.wPos
      · obtain ⟨typed, negative⟩ := header more
        rw [needsNode_window more typed, Option.any_eq_false]
        intro n announces
        have below := negative n announces
        exact decide_eq_false (by omega)
      · rw [window_of_le (Nat.not_lt.mp more), needsNode]
    rw [none]
    exact demands_none _
  · rw [window_cons more, needsNode, if_pos inline, ← window_cons more]
    exact parseInlineNodes_demands inside runs
  · rw [needsNode_window more typed, header, Option.any_some]
    refine ⟨fun none => ?_, fun some empty => ?_⟩
    · have zero : n.toNat = 0 := by
        have := of_decide_eq_false none
        omega
      rw [zero] at looped
      cases looped
      rfl
    · have positive : 0 < n.toNat := by
        have := of_decide_eq_true some
        omega
      exact (arrayLoop_asked (parseValueNodes_asked malloc p) looped).2 positive empty

/-- **The demand of a call of `resp_parser_next`.** -/
theorem nextNodes_demand (valid : p.Valid) {said : Verdict RespValueT} {last : RespParser}
    (runs : nextNodes malloc p pool = some (said, last, pool')) :
    Demands (needsNode (unread p)) pool pool' := by
  obtain ⟨validQ, same⟩ := valid.compacted
  unfold nextNodes at runs
  dsimp only at runs
  generalize (if p.rPos > p.bufCap / 2 then respCompact p else p) = q at runs validQ same
  obtain ⟨⟨verdict, after⟩, parsed, isLast⟩ := Option.map_eq_some_iff.mp runs
  have demands := parseValueNodes_demands validQ.read parsed
  rw [← same]
  cases verdict with
  | needMore =>
    cases isLast
    exact demands
  | error =>
    cases isLast
    exact demands
  | ok result =>
    cases isLast
    exact demands

theorem decodeBulk_ne_array (bulkLen : Int) (after rest : Bytes) (elements : List (RespValue Bytes)) :
    decodeBulk bulkLen after ≠ .ok (.array elements, rest) := by
  intro decoded
  unfold decodeBulk at decoded
  split_ifs at decoded
  · cases decoded
  · cases decoded

/-- An array comes from its header and its elements. -/
theorem decodeLine_array {parse : Bytes → Option (Verdict (RespValue Bytes × Bytes))} {typeByte : UInt8}
    {line after rest : Bytes} {elements : List (RespValue Bytes)}
    (typed : ¬ isTypeByte typeByte = false)
    (decoded : decodeLine parse typeByte line after = some (.ok (.array elements, rest))) :
    typeByte = 42 ∧ ∃ n, readInt line = some n ∧ (times parse n.toNat after).map
      (Verdict.map fun result => (RespValue.array result.1, result.2)) =
        some (.ok (.array elements, rest)) := by
  unfold decodeLine at decoded
  split at decoded
  · cases decoded
  rename_i notSimple
  split at decoded
  · cases decoded
  rename_i notError
  cases number : readInt line with
  | none =>
    rw [number] at decoded
    cases decoded
  | some value =>
    rw [number] at decoded
    dsimp only at decoded
    split at decoded
    · cases decoded
    rename_i notInteger
    split at decoded
    · exact absurd (Option.some.inj decoded) (decodeBulk_ne_array value after rest elements)
    rename_i notBulk
    split at decoded
    · cases decoded
    exact ⟨eq_array_of_isTypeByte typed notSimple notError notInteger notBulk, value, rfl, decoded⟩

/-- **A command without a demand**: no array, or the empty one. -/
theorem decode_of_not_needsNode {u rest : Bytes} {cmd : RespValue Bytes}
    (decoded : decode u = some (.ok (cmd, rest))) (none : needsNode u = false) :
    ∀ elements, cmd = .array elements → elements = [] := by
  rintro elements rfl
  cases u with
  | nil => cases decoded
  | cons typeByte u =>
    rw [decode, decodeAt] at decoded
    rw [needsNode] at none
    by_cases inline : isTypeByte typeByte = false
    · rw [if_pos inline] at decoded none
      unfold decodeInline at decoded
      cases found : cut [10] (typeByte :: u) with
      | none =>
        rw [found] at decoded
        cases decoded
      | some parts =>
        rw [found, Option.any_some, Bool.not_eq_false'] at none
        rw [found] at decoded
        cases decoded
        rw [List.isEmpty_iff.mp none]
        rfl
    · rw [if_neg inline] at decoded none
      cases found : cut crlf u with
      | none =>
        rw [found] at decoded
        cases decoded
      | some parts =>
        rw [found] at decoded none
        obtain ⟨isArray, n, number, decoded⟩ := decodeLine_array inline decoded
        rw [decide_eq_true isArray, Bool.true_and, Option.any_some, number, Option.any_some] at none
        -- the header announces no element
        have zero : n.toNat = 0 := by
          have := of_decide_eq_false none
          omega
        rw [zero] at decoded
        cases decoded
        rfl

end Demand

end Zedis.Resp

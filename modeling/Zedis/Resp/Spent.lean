/-
**How many nodes a call takes.**

`takenValue p fuel pos` is the number of nodes that `parse_value` takes at `pos`: it depends on the bytes
only. All of them are taken before the first one is given back, so the free ones are used up first and
the others are asked for (`Spends`); a call that accepts keeps them, one that fails gives them all back.
A refused request makes the call fail. The loops by induction on what is left of them, for a list that
is `Built` so far; `parse_value` by induction on the depth.
-/

import Zedis.Resp.Demand

namespace Zedis.Resp

open Zedis.Lib

/-- What a repetition takes: a node for each element that is begun, and what the element takes. -/
def takenTimes {α σ : Type} (parse : σ → Option (Verdict (α × σ))) (taken : σ → Nat) : Nat → σ → Nat
  | 0, _ => 0
  | n + 1, s => 1 + taken s +
      match parse s with
      | some (.ok result) => takenTimes parse taken n result.2
      | _ => 0

/-- The number of tokens of an inline command. -/
def inlineCount (p : RespParser) (pos : Nat) : Nat :=
  match respParseInline p pos with
  | some (.ok (.array elements, _)) => elements.length
  | _ => 0

/-- **The nodes that `parse_value` takes.** -/
def takenValue (p : RespParser) : Nat → Nat → Nat
  | 0, _ => 0
  | fuel + 1, pos =>
    if pos ≥ p.wPos then 0
    else if isTypeByte (p.buf pos) = false then inlineCount p pos
    else
      ((announced p pos).bind fun n => (respFindCrlf p (pos + 1)).map fun crlfPos =>
        takenTimes (parseValue p fuel) (takenValue p fuel) n.toNat (crlfPos + 2)).getD 0

/-- **What became of the free nodes** when `taken` nodes were taken, none of them refused. -/
structure Spends {α : Type} (malloc : Nat → Bool) (taken : Nat) (pool : NodePool) (free : List Nat)
    (said : Verdict α) (pool' : NodePool) : Prop where
  granted : ¬ Refused malloc pool pool'
  asked : pool'.asked = pool.asked + (taken - free.length)
  kept : ∀ result freed, said = .ok result → FreeNodes pool' freed → freed.length = free.length - taken

section Spends

variable {α β : Type} {malloc : Nat → Bool} {pool middle pool' : NodePool} {free freed : List Nat}
  {taken : Nat} {said : Verdict α}

theorem FreeNodes.unique (start : FreeNodes pool free) (again : FreeNodes pool freed) : free = freed :=
  start.listed.unique again.listed

theorem not_refused_of_asked (same : pool'.asked = pool.asked) : ¬ Refused malloc pool pool' := by
  rintro ⟨request, low, high, -⟩
  omega

/-- A refused request was made before some point, or after it. -/
theorem Refused.split (middle : NodePool) (refused : Refused malloc pool pool') :
    Refused malloc pool middle ∨ Refused malloc middle pool' := by
  obtain ⟨request, low, high, isRefused⟩ := refused
  rcases Nat.lt_or_ge request middle.asked with before | after
  · exact Or.inl ⟨request, low, before, isRefused⟩
  · exact Or.inr ⟨request, after, high, isRefused⟩

theorem Spends.none (start : FreeNodes pool free) (said : Verdict α) :
    Spends malloc 0 pool free said pool where
  granted := not_refused_of_asked rfl
  asked := by rw [Nat.zero_sub, Nat.add_zero]
  kept := fun _ freed _ now => by rw [start.unique now, Nat.sub_zero]

/-- **Some nodes, and then some more.** -/
theorem Spends.trans {result : β} {more : Nat}
    (first : Spends malloc taken pool free (.ok result) middle) (now : FreeNodes middle freed)
    (second : Spends malloc more middle freed said pool') :
    Spends malloc (taken + more) pool free said pool' := by
  have left := first.kept result freed rfl now
  have asked := first.asked
  have asked' := second.asked
  refine ⟨fun refused => ?_, by omega, fun result freed' isOk last => ?_⟩
  · exact (refused.split middle).elim first.granted second.granted
  · have left' := second.kept result freed' isOk last
    omega

/-- The nodes are given back, and the call fails. -/
theorem Spends.fails (spends : Spends malloc taken pool free said middle)
    (same : pool'.asked = middle.asked) {status : Verdict β} (failed : ∀ result, status ≠ .ok result) :
    Spends malloc taken pool free status pool' where
  granted := fun refused => by
    rcases refused.split middle with before | after
    · exact spends.granted before
    · exact not_refused_of_asked same after
  asked := same.trans spends.asked
  kept := fun result _ isOk => absurd isOk (failed result)

/-- The free nodes stay as they are. -/
theorem Spends.keeps {result : α} (spends : Spends malloc taken pool free (.ok result) middle)
    (same : pool'.asked = middle.asked) (now : FreeNodes middle freed) (last : FreeNodes pool' freed)
    (said : Verdict β) : Spends malloc taken pool free said pool' where
  granted := fun refused => by
    rcases refused.split middle with before | after
    · exact spends.granted before
    · exact not_refused_of_asked same after
  asked := same.trans spends.asked
  kept := fun _ freed' _ last' => by
    rw [← last.unique last']
    exact spends.kept result freed rfl now

theorem Spends.map (spends : Spends malloc taken pool free said pool') (f : α → β) :
    Spends malloc taken pool free (said.map f) pool' where
  granted := spends.granted
  asked := spends.asked
  kept := fun result freed isOk now => by
    cases said with
    | needMore => cases isOk
    | error => cases isOk
    | ok value => exact spends.kept value freed rfl now

theorem length_granted_le (malloc : Nat → Bool) (first last : Nat) :
    (granted malloc first last).length ≤ last - first := by
  have shorter := List.length_filter_le malloc (List.range' first (last - first))
  rwa [List.length_range'] at shorter

/-- A node is asked for where none is free. -/
theorem respNodeAlloc_granted (start : FreeNodes pool free) {node : Nat}
    (allocates : respNodeAlloc malloc pool = (some node, pool')) :
    ¬ Refused malloc pool pool' ∧ pool'.asked = pool.asked + (1 - free.length) := by
  unfold respNodeAlloc at allocates
  cases free with
  | cons first free =>
    have same : pool.asked = pool.asked + (1 - (first :: free).length) := by
      rw [List.length_cons]
      omega
    rw [start.listed.1] at allocates
    cases allocates
    exact ⟨not_refused_of_asked rfl, same⟩
  | nil =>
    rw [(start.listed : pool.freeList = none)] at allocates
    dsimp only at allocates
    split at allocates
    · rename_i grants
      cases allocates
      refine ⟨?_, rfl⟩
      rintro ⟨request, low, high, isRefused⟩
      have isFirst : request = pool.asked := Nat.le_antisymm (Nat.le_of_lt_succ high) low
      rw [isFirst, grants] at isRefused
      cases isRefused
    · cases allocates

/-- **A node is taken**: a free one, if there is one. -/
theorem respNodeAlloc_spends (start : FreeNodes pool free) {node : Nat}
    (allocates : respNodeAlloc malloc pool = (some node, pool'))
    (owns : Owns malloc pool free pool' freed [node]) : Spends malloc 1 pool free (.ok node) pool' := by
  obtain ⟨isGranted, asked⟩ := respNodeAlloc_granted start allocates
  refine ⟨isGranted, asked, fun _ freed' _ now => ?_⟩
  have count := owns.conserved.length_eq
  have few := length_granted_le malloc pool.asked pool'.asked
  rw [List.length_append, List.length_append, List.length_singleton] at count
  rw [← owns.now.unique now]
  omega

end Spends

/-! ### The loops -/

section Loops

variable {malloc : Nat → Bool} {base : NodePool} {old : List Nat}

/-- The nodes are taken; or a request was refused, there being fewer free nodes. -/
def SpendsOrFails {α : Type} (malloc : Nat → Bool) (taken : Nat) (pool : NodePool) (free : List Nat)
    (said : Verdict α) (pool' : NodePool) : Prop :=
  (said = .error ∧ Refused malloc pool pool' ∧ free.length < taken) ∨
    Spends malloc taken pool free said pool'

theorem SpendsOrFails.map {α β : Type} {pool pool' : NodePool} {free : List Nat} {taken : Nat}
    {said : Verdict α} (spends : SpendsOrFails malloc taken pool free said pool') (f : α → β) :
    SpendsOrFails malloc taken pool free (said.map f) pool' := by
  rcases spends with ⟨rfl, refused, few⟩ | spends
  · exact Or.inl ⟨rfl, refused, few⟩
  · exact Or.inr (spends.map f)

/-- The nodes that were taken before count as well. -/
theorem SpendsOrFails.after {α β : Type} {pool middle pool' : NodePool} {free freed : List Nat}
    {taken more : Nat} {said : Verdict α} {result : β}
    (later : SpendsOrFails malloc more middle freed said pool')
    (first : Spends malloc taken pool free (.ok result) middle) (now : FreeNodes middle freed) :
    SpendsOrFails malloc (taken + more) pool free said pool' := by
  have left := first.kept result freed rfl now
  rcases later with ⟨failed, refused, few⟩ | spends
  · refine Or.inl ⟨failed, refused.mono ?_ (Nat.le_refl _), by omega⟩
    rw [first.asked]
    exact Nat.le_add_right _ _
  · exact Or.inr (first.trans now spends)

/-- A request is refused only if there is no free node. -/
theorem free_of_respNodeAlloc {pool next : NodePool} {free : List Nat} (start : FreeNodes pool free)
    (fails : respNodeAlloc malloc pool = (none, next)) : free = [] := by
  cases free with
  | nil => rfl
  | cons node free =>
    rw [respNodeAlloc, start.listed.1] at fails
    cases fails

/-- `resp__node_append` asks for nothing. -/
theorem asked_of_append {list list' : NodeList} {pool pool' : NodePool} {node : Nat} {contents : RespNode}
    (appends : respNodeAppend list (pool.write node contents) node = (list', pool')) :
    pool'.asked = pool.asked := by
  have kept := respNodeAppend_asked list (pool.write node contents) node
  rw [appends] at kept
  exact kept

/-- A failing call says what it was told to say. -/
theorem failWith_said {α : Type} {status said : Verdict α} {pool pool' : NodePool} {list : NodeList}
    (fails : failWith status pool list = some (said, pool')) : said = status := by
  obtain ⟨released, -, same⟩ := Option.map_eq_some_iff.mp fails
  cases same
  rfl

/-- **The token loop** takes a node for each token. -/
theorem inlineLoop_spends {buf : Nat → UInt8} {lineEnd : Nat} : ∀ {fuel i : Nat} {slices : List Slice}
    {pool pool' : NodePool} {free used : List Nat} {list : NodeList} {values : List (RespValue Slice)}
    {said : Verdict NodeList}, Built malloc base old pool free used list values →
      inlineTokens buf lineEnd fuel i = some slices →
      inlineLoop malloc buf lineEnd fuel i list pool = some (said, pool') →
      SpendsOrFails malloc slices.length pool free said pool' := by
  intro fuel
  induction fuel with
  | zero =>
    intro i slices pool pool' free used list values said built tokens
    cases tokens
  | succ fuel ih =>
    intro i slices pool pool' free used list values said built tokens runs
    rw [inlineTokens] at tokens
    rw [inlineLoop] at runs
    by_cases more : i < lineEnd
    · rw [if_pos more] at tokens runs
      dsimp only at tokens runs
      generalize skipWhile buf isBlank lineEnd i = tok at tokens runs
      by_cases blank : tok ≥ lineEnd
      · rw [if_pos blank] at tokens runs
        cases tokens
        cases runs
        exact Or.inr (.none built.owns.now _)
      · rw [if_neg blank] at tokens runs
        generalize skipWhile buf (fun b => !isBlank b) lineEnd tok = stop at tokens runs
        obtain ⟨others, later, rfl⟩ := Option.map_eq_some_iff.mp tokens
        rcases respNodeAlloc_spec malloc built.owns.now with
          ⟨node, next, free', allocates, owns, zeroed⟩ | ⟨next, fails, owns, refused⟩
        · have one := respNodeAlloc_spends built.owns.now allocates owns
          rw [allocates] at runs
          dsimp only at runs
          obtain ⟨list', appended, appends, extended⟩ := built.token owns zeroed ⟨tok, stop - tok⟩
          have linked := one.keeps (asked_of_append appends) owns.now extended.owns.now (.ok list')
          rw [appends] at runs
          rw [List.length_cons, Nat.add_comm]
          exact (ih extended later runs).after linked extended.owns.now
        · rw [fails] at runs
          rw [free_of_respNodeAlloc built.owns.now fails]
          exact Or.inl ⟨failWith_said runs, refused.mono (Nat.le_refl _) (failWith_asked runs).ge,
            Nat.succ_pos _⟩
    · rw [if_neg more] at tokens runs
      cases tokens
      cases runs
      exact Or.inr (.none built.owns.now _)

/-- **The loop over the elements** takes a node for each element that is begun. -/
theorem arrayLoop_spends {parse : Nat → NodePool → Option (Verdict (RespValueT × Nat) × NodePool)}
    {parseList : Nat → Option (Verdict (RespValue Slice × Nat))} {taken : Nat → Nat}
    (follows : ∀ pos pool free verdict, FreeNodes pool free → parseList pos = some verdict →
      ∃ said pool', parse pos pool = some (said, pool') ∧
        Follows malloc pool free (WithPosition ValueHolds) pool' said verdict)
    (spends : ∀ pos pool free verdict said pool', FreeNodes pool free → parseList pos = some verdict →
      parse pos pool = some (said, pool') → SpendsOrFails malloc (taken pos) pool free said pool') :
    ∀ {n pos : Nat} {verdict : Verdict (List (RespValue Slice) × Nat)} {pool pool' : NodePool}
      {free used : List Nat} {list : NodeList} {values : List (RespValue Slice)}
      {said : Verdict (NodeList × Nat)}, Built malloc base old pool free used list values →
      times parseList n pos = some verdict →
      arrayLoop malloc parse n pos list pool = some (said, pool') →
      SpendsOrFails malloc (takenTimes parseList taken n pos) pool free said pool' := by
  intro n
  induction n with
  | zero =>
    intro pos verdict pool pool' free used list values said built _ runs
    cases runs
    exact Or.inr (.none built.owns.now _)
  | succ n ih =>
    intro pos verdict pool pool' free used list values said built told runs
    obtain ⟨first, here, told⟩ := Option.bind_eq_some_iff.mp told
    rw [arrayLoop] at runs
    rw [takenTimes, here]
    rcases respNodeAlloc_spec malloc built.owns.now with
      ⟨child, next, free', allocates, owns, zeroed⟩ | ⟨next, fails, owns, refused⟩
    · have one := respNodeAlloc_spends built.owns.now allocates owns
      obtain ⟨said', last, parsed, related⟩ := follows pos next free' first owns.now here
      rw [allocates] at runs
      dsimp only at runs
      rw [parsed, Option.bind_some] at runs
      rcases (spends pos next free' first said' last owns.now here parsed).after one owns.now with
        ⟨rfl, refused, few⟩ | both
      · exact Or.inl ⟨failWith_said runs, refused.mono (Nat.le_refl _) (failWith_asked runs).ge,
          Nat.lt_add_right _ few⟩
      cases related with
      | needMore =>
        have back := failWith_asked runs
        rw [failWith_said runs]
        exact Or.inr (both.fails back fun _ isOk => by cases isOk)
      | error =>
        have back := failWith_asked runs
        rw [failWith_said runs]
        exact Or.inr (both.fails back fun _ isOk => by cases isOk)
      | refused _ _ refused =>
        exact absurd (refused.mono owns.later (Nat.le_refl _)) both.granted
      | @ok free'' inner mine theirs owned held =>
        obtain ⟨out, pos'⟩ := mine
        obtain ⟨value, _⟩ := theirs
        obtain ⟨rfl, held⟩ := held
        obtain ⟨others, later, -⟩ := Option.map_eq_some_iff.mp told
        obtain ⟨list', appended, appends, extended⟩ := built.nested owns zeroed owned held
        have linked := both.keeps (asked_of_append appends) owned.now extended.owns.now (.ok list')
        dsimp only at runs
        rw [appends] at runs
        exact (ih extended later runs).after linked extended.owns.now
    · rw [fails] at runs
      rw [free_of_respNodeAlloc built.owns.now fails, Nat.add_assoc, Nat.add_comm]
      exact Or.inl ⟨failWith_said runs, refused.mono (Nat.le_refl _) (failWith_asked runs).ge,
        Nat.succ_pos _⟩

end Loops

/-! ### Values -/

section Values

variable {malloc : Nat → Bool} {p : RespParser} {pool pool' : NodePool} {free : List Nat}

theorem parseInlineNodes_spends (start : FreeNodes pool free) {pos : Nat}
    {verdict : Verdict (RespValue Slice × Nat)} (told : respParseInline p pos = some verdict)
    {said : Verdict (RespValueT × Nat)}
    (runs : parseInlineNodes malloc p pos pool = some (said, pool')) :
    SpendsOrFails malloc (inlineCount p pos) pool free said pool' := by
  rw [inlineCount, told]
  unfold respParseInline at told
  unfold parseInlineNodes at runs
  cases found : (List.range' pos (p.wPos - pos)).find? fun i => p.buf i == 10 with
  | none =>
    rw [found] at told runs
    cases told
    cases runs
    exact Or.inr (.none start _)
  | some lf =>
    rw [found] at told runs
    obtain ⟨slices, tokens, rfl⟩ := Option.map_eq_some_iff.mp told
    obtain ⟨⟨verdict, last⟩, looped, same⟩ := Option.map_eq_some_iff.mp runs
    cases same
    have spends := inlineLoop_spends (Built.noNodes start) tokens looped
    dsimp only
    rw [List.length_map]
    exact spends.map _

/-- The header of an array is followed by its elements. -/
theorem parseValue_array {fuel pos : Nat} (more : pos < p.wPos) {n : Int} {crlfPos : Nat}
    (header : announced p pos = some n) (found : respFindCrlf p (pos + 1) = some crlfPos)
    (nonneg : 0 ≤ n) :
    parseValue p (fuel + 1) pos = parseArray (parseValue p fuel) n (crlfPos + 2) := by
  unfold announced at header
  split at header
  · rename_i isArray
    rw [found, Option.bind_some] at header
    rw [parseValue, if_neg (Nat.not_le.mpr more)]
    dsimp only
    rw [isArray, found, if_neg (by decide)]
    dsimp only
    rw [if_neg (by decide), if_neg (by decide), header]
    dsimp only
    rw [if_neg (by decide), if_neg (by decide), if_neg (Int.not_lt.mpr nonneg)]
  · cases header

/-- Nothing is taken without an inline command or the header of an array. -/
theorem takenValue_eq_zero {fuel pos : Nat} (header : pos < p.wPos →
    ¬ isTypeByte (p.buf pos) = false ∧ ∀ n, announced p pos = some n → n < 0) :
    takenValue p (fuel + 1) pos = 0 := by
  rw [takenValue]
  split
  · rfl
  · rename_i more
    obtain ⟨typed, negative⟩ := header (Nat.lt_of_not_le more)
    rw [if_neg typed]
    cases announces : announced p pos with
    | none => rfl
    | some n =>
      rw [Option.bind_some, Int.toNat_of_nonpos (Int.le_of_lt (negative n announces))]
      cases respFindCrlf p (pos + 1) with
      | none => rfl
      | some crlfPos => rfl

/-- **`parse_value` takes `takenValue` nodes**, or a request was refused. -/
theorem parseValueNodes_spends : ∀ (fuel pos : Nat) (pool : NodePool) (free : List Nat)
    (verdict : Verdict (RespValue Slice × Nat)) (said : Verdict (RespValueT × Nat)) (pool' : NodePool),
      FreeNodes pool free → parseValue p fuel pos = some verdict →
      parseValueNodes malloc p fuel pos pool = some (said, pool') →
      SpendsOrFails malloc (takenValue p fuel pos) pool free said pool' := by
  intro fuel
  induction fuel with
  | zero =>
    intro pos pool free verdict said pool' start told
    cases told
  | succ fuel ih =>
    intro pos pool free verdict said pool' start told runs
    rcases parseValueNodes_cases runs with ⟨rfl, header⟩ | ⟨more, inline, inlined⟩ |
      ⟨more, typed, n, crlfPos, result, header, found, nonneg, looped, rfl⟩
    · rw [takenValue_eq_zero header]
      exact Or.inr (.none start _)
    · rw [takenValue, if_neg (Nat.not_le.mpr more), if_pos inline]
      rw [parseValue, if_neg (Nat.not_le.mpr more)] at told
      dsimp only at told
      rw [if_pos inline] at told
      exact parseInlineNodes_spends start told inlined
    · rw [takenValue, if_neg (Nat.not_le.mpr more), if_neg typed, header, found]
      rw [parseValue_array more header found nonneg] at told
      obtain ⟨listed, loops, -⟩ := Option.map_eq_some_iff.mp told
      have spends := arrayLoop_spends (parseValueNodes_follows fuel) ih (Built.noNodes start) loops looped
      exact spends.map _

end Values

end Zedis.Resp

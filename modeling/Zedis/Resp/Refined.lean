/-
**The parser with its nodes does what the parser with lists does.**

`Follows` relates what the two say, and with it the nodes: an accepted value is at `*out` and owns the
nodes in use; a call that does not accept has given all nodes back. Only a refused request for a node
makes the one fail where the other does not.

* `arrayLoop_follows`, `inlineLoop_follows`: the loops of `parse_array` and `resp__parse_inline`, by
  induction on what is left of them, for a list that is `Built` so far;
* `parseValueNodes_follows`: `parse_value`, by induction on the depth;
* `parses_encoding`: encoded values, and their strict prefixes.
-/

import Zedis.Resp.Encode
import Zedis.Resp.Owned

namespace Zedis.Resp

open Zedis.Lib

/-- **What the parser with nodes says**, and what the one with lists does. `Holds` relates what is
accepted, given the nodes in use. -/
inductive Follows {α β : Type} (malloc : Nat → Bool) (base : NodePool) (old : List Nat)
    (Holds : NodePool → α → β → List Nat → Prop) (pool : NodePool) : Verdict α → Verdict β → Prop
  | needMore {free : List Nat} : Owns malloc base old pool free [] →
      Follows malloc base old Holds pool .needMore .needMore
  | error {free : List Nat} : Owns malloc base old pool free [] →
      Follows malloc base old Holds pool .error .error
  | refused {free : List Nat} (verdict : Verdict β) : Owns malloc base old pool free [] →
      Refused malloc base pool → Follows malloc base old Holds pool .error verdict
  | ok {free used : List Nat} {mine : α} {theirs : β} : Owns malloc base old pool free used →
      Holds pool mine theirs used → Follows malloc base old Holds pool (.ok mine) (.ok theirs)

/-- The list of some values. -/
def ListHolds (pool : NodePool) (list : NodeList) (values : List (RespValue Slice))
    (nodes : List Nat) : Prop :=
  list.count = values.length ∧ ListAt pool.mem values none list.head list.tail nodes

/-- A value. -/
def ValueHolds (pool : NodePool) (out : RespValueT) (value : RespValue Slice) (nodes : List Nat) : Prop :=
  ValueAt pool.mem value out nodes

/-- The same, with equal positions. -/
def WithPosition {α β : Type} (Holds : NodePool → α → β → List Nat → Prop) (pool : NodePool)
    (mine : α × Nat) (theirs : β × Nat) (nodes : List Nat) : Prop :=
  mine.2 = theirs.2 ∧ Holds pool mine.1 theirs.1 nodes

section Follows

variable {α β γ δ : Type} {malloc : Nat → Bool} {base pool : NodePool} {old free used : List Nat}

theorem Refused.mono {first last : NodePool} (refused : Refused malloc base pool)
    (before : first.asked ≤ base.asked) (after : pool.asked ≤ last.asked) :
    Refused malloc first last := by
  obtain ⟨request, low, high, isRefused⟩ := refused
  exact ⟨request, before.trans low, high.trans_le after, isRefused⟩

/-- What is accepted may be looked at in another way. -/
theorem Follows.map {Holds : NodePool → α → β → List Nat → Prop}
    {Holds' : NodePool → γ → δ → List Nat → Prop} {f : α → γ} {g : β → δ}
    (holds : ∀ mine theirs nodes, Holds pool mine theirs nodes → Holds' pool (f mine) (g theirs) nodes)
    {mine : Verdict α} {theirs : Verdict β} (follows : Follows malloc base old Holds pool mine theirs) :
    Follows malloc base old Holds' pool (mine.map f) (theirs.map g) := by
  cases follows with
  | needMore owns => exact .needMore owns
  | error owns => exact .error owns
  | refused verdict owns refused => exact .refused _ owns refused
  | ok owns held => exact .ok owns (holds _ _ _ held)

end Follows

/-! ### The loops -/

section Loops

variable {malloc : Nat → Bool} {base pool : NodePool} {old free used : List Nat} {list : NodeList}
  {values : List (RespValue Slice)}

/-- A request that is refused makes the loop fail. -/
theorem Built.refused {α β : Type} {Holds : NodePool → α → β → List Nat → Prop}
    (built : Built malloc base old pool free used list values) {next : NodePool}
    (owns : Owns malloc pool free next free []) (refused : Refused malloc pool next)
    (verdict : Verdict β) : ∃ pool', failWith (.error : Verdict α) next list = some (.error, pool') ∧
      Follows malloc base old Holds pool' .error verdict := by
  have all := built.owns.trans owns
  rw [List.append_nil] at all
  obtain ⟨pool', free', fails, owned, asked⟩ :=
    failWith_spec .error all (built.linked.congr (built.owns.keeps owns))
  exact ⟨pool', fails, .refused verdict owned (refused.mono built.owns.later asked.ge)⟩

/-- **One more element**: its node is taken before the nested value is parsed, and written and put at
the end of the list after that. -/
theorem Built.extend (built : Built malloc base old pool free used list values) {next last : NodePool}
    {free' free'' inner : List Nat} {node : Nat} {value : RespValue Slice} {contents : RespNode}
    (allocated : Owns malloc pool free next free' [node])
    (nested : Owns malloc next free' last free'' inner)
    (held : ValueAt last.mem value (nodeValue contents) inner) : ∃ list' pool',
      respNodeAppend list (last.write node contents) node = (list', pool') ∧
      Built malloc base old pool' free'' (used ++ node :: inner) list' (values ++ [value]) := by
  have owns : Owns malloc base old last free'' (used ++ node :: inner) :=
    built.owns.trans (allocated.trans nested)
  have linked := built.linked.congr (built.owns.keeps (allocated.trans nested))
  obtain ⟨-, nodupNode, apart⟩ := List.nodup_append.mp (List.nodup_append.mp owns.nodup).2.1
  refine Built.append (owns.write (List.mem_append_right _ List.mem_cons_self) contents)
    (linked.congr fun other member => ?_) built.count ?_
  · exact mem_write_of_ne _ _ (apart other member node List.mem_cons_self)
  · rw [mem_write_self]
    refine held.congr fun other member => ?_
    exact mem_write_of_ne _ _ (ne_of_mem_of_not_mem member (List.nodup_cons.mp nodupNode).1)

/-- **One more token.** -/
theorem Built.token (built : Built malloc base old pool free used list values) {next : NodePool}
    {free' : List Nat} {node : Nat} (allocated : Owns malloc pool free next free' [node])
    (zeroed : next.mem node = zeroNode) (slice : Slice) : ∃ list' pool',
      respNodeAppend list (next.write node { next.mem node with type := .bulk, bulk := slice }) node =
        (list', pool') ∧
      Built malloc base old pool' free' (used ++ [node]) list' (values ++ [.bulk slice]) := by
  rw [zeroed]
  have held : ValueAt next.mem (.bulk slice)
      (nodeValue { zeroNode with type := .bulk, bulk := slice }) [] := ⟨rfl, rfl⟩
  exact built.extend allocated (.refl allocated.now) held

/-- **The token loop.** -/
theorem inlineLoop_follows {buf : Nat → UInt8} {lineEnd : Nat} : ∀ {fuel i : Nat} {slices : List Slice}
    {pool : NodePool} {free used : List Nat} {list : NodeList} {values : List (RespValue Slice)},
    Built malloc base old pool free used list values →
    inlineTokens buf lineEnd fuel i = some slices → ∃ said pool',
      inlineLoop malloc buf lineEnd fuel i list pool = some (said, pool') ∧
      Follows malloc base old ListHolds pool' said (.ok (values ++ slices.map .bulk)) := by
  intro fuel
  induction fuel with
  | zero =>
    intro i slices pool free used list values built tokens
    cases tokens
  | succ fuel ih =>
    intro i slices pool free used list values built tokens
    have finished : Follows malloc base old ListHolds pool (.ok list)
        (.ok (values ++ ([] : List Slice).map .bulk)) := by
      rw [List.map_nil, List.append_nil]
      exact .ok built.owns ⟨built.count, built.linked⟩
    rw [inlineTokens] at tokens
    rw [inlineLoop]
    by_cases more : i < lineEnd
    · rw [if_pos more] at tokens ⊢
      dsimp only at tokens ⊢
      generalize skipWhile buf isBlank lineEnd i = tok at tokens ⊢
      by_cases blank : tok ≥ lineEnd
      · rw [if_pos blank] at tokens ⊢
        cases tokens
        exact ⟨_, _, rfl, finished⟩
      · rw [if_neg blank] at tokens ⊢
        generalize skipWhile buf (fun b => !isBlank b) lineEnd tok = stop at tokens ⊢
        obtain ⟨others, later, rfl⟩ := Option.map_eq_some_iff.mp tokens
        rcases respNodeAlloc_spec malloc built.owns.now with
          ⟨node, next, free', allocates, owns, zeroed⟩ | ⟨next, fails, owns, refused⟩
        · rw [allocates]
          dsimp only
          obtain ⟨list', pool', appends, extended⟩ := built.token owns zeroed ⟨tok, stop - tok⟩
          rw [appends]
          obtain ⟨said, last, runs, follows⟩ := ih extended later
          rw [List.append_assoc] at follows
          exact ⟨said, last, runs, follows⟩
        · rw [fails]
          obtain ⟨pool', releases, follows⟩ := built.refused owns refused _
          exact ⟨.error, pool', releases, follows⟩
    · rw [if_neg more] at tokens ⊢
      cases tokens
      exact ⟨_, _, rfl, finished⟩

/-- The node of a nested value holds it. -/
theorem nodeValue_fillNode {mem : Nat → RespNode} {value : RespValue Slice} {out : RespValueT}
    {nodes : List Nat} (held : ValueAt mem value out nodes) : nodeValue (fillNode zeroNode out) = out := by
  cases value with
  | array elements =>
    obtain ⟨list, rfl, -⟩ := held
    rfl
  | _ =>
    rw [held.1]
    rfl

/-- **One more nested value.** -/
theorem Built.nested (built : Built malloc base old pool free used list values) {next last : NodePool}
    {free' free'' inner : List Nat} {node : Nat} {value : RespValue Slice} {out : RespValueT}
    (allocated : Owns malloc pool free next free' [node]) (zeroed : next.mem node = zeroNode)
    (nested : Owns malloc next free' last free'' inner) (held : ValueAt last.mem value out inner) :
    ∃ list' pool', respNodeAppend list (last.write node (fillNode (last.mem node) out)) node =
        (list', pool') ∧
      Built malloc base old pool' free'' (used ++ node :: inner) list' (values ++ [value]) := by
  rw [(allocated.keeps nested node (List.mem_singleton_self node)).trans zeroed]
  exact built.extend allocated nested ((nodeValue_fillNode held).symm ▸ held)

/-- A nested value that is not there makes the loop fail: its node goes back, and then the list. -/
theorem Built.fails {α : Type} (built : Built malloc base old pool free used list values)
    {next last : NodePool} {free' free'' : List Nat} {node : Nat} (status : Verdict α)
    (allocated : Owns malloc pool free next free' [node])
    (nested : Owns malloc next free' last free'' []) : ∃ pool' freed,
      failWith status (respNodeFree last node) list = some (status, pool') ∧
      Owns malloc base old pool' freed [] ∧ last.asked ≤ pool'.asked := by
  have back : Owns malloc pool free (respNodeFree last node) (node :: free'') [] :=
    (allocated.trans nested).nodeFree
  have all := built.owns.trans back
  rw [List.append_nil] at all
  obtain ⟨pool', freed, releases, owned, asked⟩ :=
    failWith_spec status all (built.linked.congr (built.owns.keeps back))
  exact ⟨pool', freed, releases, owned, asked.ge⟩

/-- **The loop over the elements.** -/
theorem arrayLoop_follows {parse : Nat → NodePool → Option (Verdict (RespValueT × Nat) × NodePool)}
    {parseList : Nat → Option (Verdict (RespValue Slice × Nat))}
    (each : ∀ pos pool free verdict, FreeNodes pool free → parseList pos = some verdict → ∃ said pool',
      parse pos pool = some (said, pool') ∧
      Follows malloc pool free (WithPosition ValueHolds) pool' said verdict) :
    ∀ {n pos : Nat} {verdict : Verdict (List (RespValue Slice) × Nat)} {pool : NodePool}
      {free used : List Nat} {list : NodeList} {values : List (RespValue Slice)},
      Built malloc base old pool free used list values → times parseList n pos = some verdict →
      ∃ said pool', arrayLoop malloc parse n pos list pool = some (said, pool') ∧
        Follows malloc base old (WithPosition ListHolds) pool' said
          (verdict.map fun more => (values ++ more.1, more.2)) := by
  intro n
  induction n with
  | zero =>
    intro pos verdict pool free used list values built told
    cases told
    have finished : ListHolds pool list (values ++ []) used := by
      rw [List.append_nil]
      exact ⟨built.count, built.linked⟩
    exact ⟨_, _, rfl, .ok built.owns ⟨rfl, finished⟩⟩
  | succ n ih =>
    intro pos verdict pool free used list values built told
    obtain ⟨first, here, told⟩ := Option.bind_eq_some_iff.mp told
    rw [arrayLoop]
    rcases respNodeAlloc_spec malloc built.owns.now with
      ⟨child, next, free', allocates, owns, zeroed⟩ | ⟨next, fails, owns, refused⟩
    · obtain ⟨said, last, runs, follows⟩ := each pos next free' first owns.now here
      rw [allocates]
      dsimp only
      rw [runs, Option.bind_some]
      cases follows with
      | needMore nested =>
        cases told
        obtain ⟨pool', freed, releases, owned, -⟩ := built.fails .needMore owns nested
        exact ⟨_, pool', releases, .needMore owned⟩
      | error nested =>
        cases told
        obtain ⟨pool', freed, releases, owned, -⟩ := built.fails .error owns nested
        exact ⟨_, pool', releases, .error owned⟩
      | refused _ nested refused =>
        obtain ⟨pool', freed, releases, owned, asked⟩ := built.fails .error owns nested
        exact ⟨_, pool', releases,
          .refused _ owned (refused.mono (built.owns.later.trans owns.later) asked)⟩
      | @ok _ _ mine theirs nested held =>
        obtain ⟨out, pos⟩ := mine
        obtain ⟨value, _⟩ := theirs
        obtain ⟨rfl, held⟩ := held
        obtain ⟨others, later, rfl⟩ := Option.map_eq_some_iff.mp told
        obtain ⟨list', pool', appends, extended⟩ := built.nested owns zeroed nested held
        obtain ⟨said, final, loops, follows⟩ := ih extended later
        dsimp only
        rw [appends]
        refine ⟨said, final, loops, ?_⟩
        cases others with
        | needMore => exact follows
        | error => exact follows
        | ok result =>
          simp only [Verdict.map, List.append_assoc, List.singleton_append] at follows ⊢
          exact follows
    · rw [fails]
      obtain ⟨pool', releases, follows⟩ := built.refused owns refused _
      exact ⟨.error, pool', releases, follows⟩

end Loops

/-! ### Values -/

section Values

variable {malloc : Nat → Bool} {p : RespParser} {pool : NodePool} {free : List Nat}

/-- A list is the value of an array. -/
theorem Follows.array {base : NodePool} {old : List Nat} {said : Verdict (NodeList × Nat)}
    {told : Verdict (List (RespValue Slice) × Nat)}
    (follows : Follows malloc base old (WithPosition ListHolds) pool said told) :
    Follows malloc base old (WithPosition ValueHolds) pool
      (said.map fun result => (arrayOut result.1, result.2))
      (told.map fun result => (.array result.1, result.2)) :=
  follows.map fun mine _ _ holds => ⟨holds.1, mine.1, rfl, holds.2.1, holds.2.2⟩

theorem Follows.inline {base : NodePool} {old : List Nat} {said : Verdict NodeList}
    {told : Verdict (List (RespValue Slice))} (pos : Nat)
    (follows : Follows malloc base old ListHolds pool said told) :
    Follows malloc base old (WithPosition ValueHolds) pool (said.map fun list => (arrayOut list, pos))
      (told.map fun values => (.array values, pos)) :=
  follows.map fun list _ _ holds => ⟨rfl, list, rfl, holds.1, holds.2⟩

theorem parseInlineNodes_follows (start : FreeNodes pool free) {pos : Nat}
    {verdict : Verdict (RespValue Slice × Nat)} (told : respParseInline p pos = some verdict) :
    ∃ said pool', parseInlineNodes malloc p pos pool = some (said, pool') ∧
      Follows malloc pool free (WithPosition ValueHolds) pool' said verdict := by
  unfold respParseInline at told
  unfold parseInlineNodes
  cases found : (List.range' pos (p.wPos - pos)).find? fun i => p.buf i == 10 with
  | none =>
    rw [found] at told
    cases told
    exact ⟨_, _, rfl, .needMore (.refl start)⟩
  | some lf =>
    rw [found] at told
    obtain ⟨slices, tokens, rfl⟩ := Option.map_eq_some_iff.mp told
    obtain ⟨said, pool', runs, follows⟩ := inlineLoop_follows (Built.noNodes start) tokens
    dsimp only
    rw [runs]
    exact ⟨_, pool', rfl, follows.inline (lf + 1)⟩

theorem parseArrayNodes_follows
    {parse : Nat → NodePool → Option (Verdict (RespValueT × Nat) × NodePool)}
    {parseList : Nat → Option (Verdict (RespValue Slice × Nat))}
    (each : ∀ pos pool free verdict, FreeNodes pool free → parseList pos = some verdict → ∃ said pool',
      parse pos pool = some (said, pool') ∧
      Follows malloc pool free (WithPosition ValueHolds) pool' said verdict)
    (start : FreeNodes pool free) {count : Int} {pos : Nat} {verdict : Verdict (RespValue Slice × Nat)}
    (told : parseArray parseList count pos = some verdict) :
    ∃ said pool', parseArrayNodes malloc parse count pos pool = some (said, pool') ∧
      Follows malloc pool free (WithPosition ValueHolds) pool' said verdict := by
  obtain ⟨result, loops, rfl⟩ := Option.map_eq_some_iff.mp told
  obtain ⟨said, pool', runs, follows⟩ := arrayLoop_follows each (Built.noNodes start) loops
  rw [parseArrayNodes, runs]
  refine ⟨_, pool', rfl, ?_⟩
  cases result with
  | needMore => exact follows.array
  | error => exact follows.array
  | ok _ => exact follows.array

theorem parseBulk_follows (start : FreeNodes pool free) (crlf : Nat) (bulkLen : Int) :
    Follows malloc pool free (WithPosition ValueHolds) pool
      ((parseBulk p crlf bulkLen).map fun result => (outOf result.1, result.2))
      (parseBulk p crlf bulkLen) := by
  unfold parseBulk
  dsimp only
  split_ifs
  · exact .ok (.refl start) ⟨rfl, rfl, rfl⟩
  · exact .needMore (.refl start)
  · exact .error (.refl start)
  · exact .ok (.refl start) ⟨rfl, rfl, rfl⟩

/-- **`parse_value` with nodes does what it does with lists.** -/
theorem parseValueNodes_follows : ∀ (fuel pos : Nat) (pool : NodePool) (free : List Nat)
    (verdict : Verdict (RespValue Slice × Nat)), FreeNodes pool free →
      parseValue p fuel pos = some verdict → ∃ said pool',
        parseValueNodes malloc p fuel pos pool = some (said, pool') ∧
        Follows malloc pool free (WithPosition ValueHolds) pool' said verdict := by
  intro fuel
  induction fuel with
  | zero =>
    intro pos pool free verdict start told
    cases told
  | succ fuel ih =>
    intro pos pool free verdict start told
    rw [parseValue] at told
    rw [parseValueNodes]
    by_cases ended : pos ≥ p.wPos
    · rw [if_pos ended] at told ⊢
      cases told
      exact ⟨_, _, rfl, .needMore (.refl start)⟩
    rw [if_neg ended] at told ⊢
    dsimp only at told ⊢
    by_cases isInline : isTypeByte (p.buf pos) = false
    · rw [if_pos isInline] at told ⊢
      exact parseInlineNodes_follows start told
    rw [if_neg isInline] at told ⊢
    cases line : respFindCrlf p (pos + 1) with
    | none =>
      rw [line] at told
      cases told
      exact ⟨_, _, rfl, .needMore (.refl start)⟩
    | some crlf =>
      rw [line] at told
      dsimp only at told ⊢
      by_cases isSimple : p.buf pos = 43
      · rw [if_pos isSimple] at told ⊢
        cases told
        exact ⟨_, _, rfl, .ok (.refl start) ⟨rfl, rfl, rfl⟩⟩
      rw [if_neg isSimple] at told ⊢
      by_cases isError : p.buf pos = 45
      · rw [if_pos isError] at told ⊢
        cases told
        exact ⟨_, _, rfl, .ok (.refl start) ⟨rfl, rfl, rfl⟩⟩
      rw [if_neg isError] at told ⊢
      cases number : respParseInt p.buf (pos + 1) crlf with
      | none =>
        rw [number] at told
        cases told
        exact ⟨_, _, rfl, .error (.refl start)⟩
      | some value =>
        rw [number] at told
        dsimp only at told ⊢
        by_cases isInteger : p.buf pos = 58
        · rw [if_pos isInteger] at told ⊢
          cases told
          exact ⟨_, _, rfl, .ok (.refl start) ⟨rfl, rfl, rfl⟩⟩
        rw [if_neg isInteger] at told ⊢
        by_cases isBulk : p.buf pos = 36
        · rw [if_pos isBulk] at told ⊢
          cases told
          exact ⟨_, _, rfl, parseBulk_follows start crlf value⟩
        rw [if_neg isBulk] at told ⊢
        by_cases isNull : value < 0
        · rw [if_pos isNull] at told ⊢
          cases told
          exact ⟨_, _, rfl, .ok (.refl start) ⟨rfl, rfl, rfl⟩⟩
        rw [if_neg isNull] at told ⊢
        exact parseArrayNodes_follows ih start told

/-- **`resp_parser_next` with nodes**: as with lists, and the parser is left as there unless a refused
request for a node made the call fail. -/
theorem nextNodes_follows (malloc : Nat → Bool) (start : FreeNodes pool free)
    {verdict : Verdict (RespValue Slice)} {after : RespParser} (told : respParserNext p = some (verdict, after)) :
    ∃ said last pool', nextNodes malloc p pool = some (said, last, pool') ∧
      Follows malloc pool free ValueHolds pool' said verdict ∧
      (¬ Refused malloc pool pool' ∨ said ≠ .error → last = after) := by
  obtain ⟨result, parsed, same⟩ := Option.map_eq_some_iff.mp told
  obtain ⟨said, pool', runs, follows⟩ := parseValueNodes_follows _ _ pool free result start parsed
  unfold nextNodes
  dsimp only
  rw [runs, Option.map_some]
  cases follows with
  | needMore owns =>
    cases same
    exact ⟨_, _, pool', rfl, .needMore owns, fun _ => rfl⟩
  | error owns =>
    cases same
    exact ⟨_, _, pool', rfl, .error owns, fun _ => rfl⟩
  | refused _ owns refused =>
    exact ⟨_, _, pool', rfl, .refused verdict owns refused,
      fun other => other.elim (absurd refused) (absurd rfl)⟩
  | @ok _ _ mine theirs owns held =>
    obtain ⟨out, pos⟩ := mine
    obtain ⟨value, _⟩ := theirs
    obtain ⟨rfl, held⟩ := held
    cases same
    exact ⟨_, _, pool', rfl, .ok owns held, fun _ => rfl⟩

end Values

/-! ### Encoded values -/

section Encoded

variable {malloc : Nat → Bool} {p : RespParser} {pool : NodePool} {free : List Nat}
  {value : RespValue Bytes}

theorem not_refused (grants : ∀ request, malloc request = true) (base pool : NodePool) :
    ¬ Refused malloc base pool := by
  rintro ⟨request, -, -, isRefused⟩
  rw [grants request] at isRefused
  cases isRefused

/-- **The whole format is parsed**: where the unread bytes start with an encoded value, that value is
at `*out`, with the list of each array in the order of `next`, and what follows it is left; a strict
prefix of an encoding waits for the rest. -/
theorem parses_encoding (valid : p.Valid) (start : FreeNodes pool free)
    (grants : ∀ request, malloc request = true) (encodable : Encodable value) (sized : Sized value) :
    (∀ rest, unread p = encode value ++ rest → ∃ out after pool' parsed nodes,
      nextNodes malloc p pool = some (.ok out, after, pool') ∧ ValueAt pool'.mem parsed out nodes ∧
      parsed.contents after.buf = value ∧ unread after = rest) ∧
    ∀ rest, rest ≠ [] → unread p ++ rest = encode value → ∃ after pool',
      nextNodes malloc p pool = some (.needMore, after, pool') := by
  refine ⟨fun rest text => ?_, fun rest more text => ?_⟩
  · obtain ⟨parsed, after, told, same, left⟩ := respParserNext_read valid encodable text
    obtain ⟨said, last, pool', runs, follows, isAfter⟩ := nextNodes_follows malloc start told
    obtain rfl := isAfter (Or.inl (not_refused grants pool pool'))
    cases follows with
    | refused _ _ refused => exact absurd refused (not_refused grants pool pool')
    | @ok _ nodes out _ _ held => exact ⟨out, last, pool', parsed, nodes, runs, held, same, left⟩
  · obtain ⟨after, told⟩ := respParserNext_front valid encodable sized more text
    obtain ⟨said, last, pool', runs, follows, -⟩ := nextNodes_follows malloc start told
    cases follows with
    | needMore => exact ⟨last, pool', runs⟩
    | refused _ _ refused => exact absurd refused (not_refused grants pool pool')

/-- A new parser has no free nodes. -/
theorem freeNodes_new (mem : Nat → RespNode) : FreeNodes ⟨mem, none, 0⟩ [] :=
  ⟨rfl, List.nodup_nil, nofun⟩

/-- A nested array with a line end in a bulk string. -/
def sampleValue : RespValue Bytes :=
  .array [.bulk (ascii "a\r\n"), .array [.integer (-5), .null, .array []], .simple (ascii "OK")]

/-- A nested array is parsed, and what follows it is left. -/
theorem parses_encoding_nested : Encodable sampleValue ∧ Sized sampleValue ∧
    ∃ p, p.Valid ∧ unread p = encode sampleValue ++ ascii "+x" ∧ ∃ out after pool' parsed nodes,
      nextNodes (fun _ => true) p ⟨fun _ => zeroNode, none, 0⟩ = some (.ok out, after, pool') ∧
      ValueAt pool'.mem parsed out nodes ∧ parsed.contents after.buf = sampleValue ∧
      unread after = ascii "+x" := by
  have encodable : Encodable sampleValue := by
    refine ⟨trivial, ⟨⟨by decide, by decide⟩, trivial, trivial, trivial⟩, ?_, trivial⟩
    change ¬ crlf <:+: ascii "OK"
    decide
  have sized : Sized sampleValue := sized_of_length (by decide)
  have valid : (⟨fun _ => 0, 64, 0, 0⟩ : RespParser).Valid := ⟨Nat.le_refl 0, Nat.zero_le _, by decide⟩
  obtain ⟨held, text⟩ := appendBytes_spec valid
    (show 0 + (encode sampleValue ++ ascii "+x").length ≤ 64 by decide)
  rw [show unread ⟨fun _ => 0, 64, 0, 0⟩ = [] from rfl, List.nil_append] at text
  exact ⟨encodable, sized, _, held, text,
    (parses_encoding held (freeNodes_new _) (fun _ => rfl) encodable sized).1 _ text⟩

end Encoded

end Zedis.Resp

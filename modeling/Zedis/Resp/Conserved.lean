/-
**The nodes of the parser are conserved.**

`nodesFrom` follows the links `next` and `child_head`, as `resp__node_list_release` does; from `*out` it
comes to exactly the nodes that the value owns. With what `Owns` says of a call, the free nodes and those
of the value are together the nodes that were free and those that were granted, and no node is there
twice. A call that needs more bytes has given back as many nodes as it took, and the next call on the
same bytes takes as many: it asks for none (`Stocked`).
-/

import Zedis.Lib.Run
import Zedis.Resp.Consumed
import Zedis.Resp.Spent

namespace Zedis.Resp

open Zedis.Lib

/-! ### The nodes of a value -/

/-- The nodes that the links lead to from `head`, with a bound on their number and depth. -/
def nodesFrom (mem : Nat → RespNode) : Nat → Option Nat → Option (List Nat)
  | 0, _ => none
  | _ + 1, none => some []
  | fuel + 1, some node =>
    (nodesFrom mem fuel (mem node).childHead).bind fun inner =>
      (nodesFrom mem fuel (mem node).next).map fun rest => node :: (inner ++ rest)

/-- The nodes that are reachable from a value. -/
def valueNodes (pool : NodePool) (out : RespValueT) : Option (List Nat) :=
  nodesFrom pool.mem (pool.asked + 1) out.arrayHead

/-- `*out` after a call: it is zeroed at the start, and written where the call accepts. -/
def outAfter : Verdict RespValueT → RespValueT
  | .ok out => out
  | .needMore => ⟨.incomplete, 0, ⟨0, 0⟩, none, none, 0⟩
  | .error => ⟨.incomplete, 0, ⟨0, 0⟩, none, none, 0⟩

section Walk

variable {mem : Nat → RespNode}

theorem nodesFrom_of_listAt : ∀ (fuel : Nat) {values : List (RespValue Slice)}
    {prev head tail : Option Nat} {nodes : List Nat}, nodes.length < fuel →
      ListAt mem values prev head tail nodes → nodesFrom mem fuel head = some nodes
  | 0, _, _, _, _, _, enough, _ => absurd enough (Nat.not_lt_zero _)
  | fuel + 1, values, prev, head, tail, nodes, enough, linked => by
    cases values with
    | nil =>
      obtain ⟨rfl, -, rfl⟩ := linked
      rfl
    | cons value values =>
      obtain ⟨node, inner, rest, rfl, rfl, -, held, linked⟩ := linked
      rw [List.length_cons, List.length_append] at enough
      have below : nodesFrom mem fuel (mem node).childHead = some inner := by
        cases isChild : (mem node).childHead with
        | none =>
          obtain ⟨fuel, rfl⟩ := Nat.exists_eq_succ_of_ne_zero (show fuel ≠ 0 by omega)
          rw [held.nodes_eq_nil isChild]
          rfl
        | some child =>
          obtain ⟨elements, last, nested⟩ := held.elements isChild
          exact nodesFrom_of_listAt fuel (by omega) nested
      rw [nodesFrom, below, nodesFrom_of_listAt fuel (by omega) linked]
      rfl

/-- **From a value the links lead to the nodes that it owns.** -/
theorem valueNodes_of_valueAt {pool : NodePool} {value : RespValue Slice} {out : RespValueT}
    {nodes : List Nat} (few : nodes.length ≤ pool.asked) (held : ValueAt pool.mem value out nodes) :
    valueNodes pool out = some nodes := by
  unfold valueNodes
  cases isHead : out.arrayHead with
  | none =>
    rw [held.nodes_eq_nil isHead]
    rfl
  | some first =>
    obtain ⟨elements, last, linked⟩ := held.elements isHead
    exact nodesFrom_of_listAt _ (Nat.lt_succ_of_le few) linked

end Walk

/-! ### Another call on the same bytes -/

/-- A call that needs more bytes: the parser and its nodes after it. -/
def waitStep (state : RespParser × NodePool) (malloc : Nat → Bool) : Option (RespParser × NodePool) :=
  (nextNodes malloc state.1 state.2).bind fun (said, p, pool) =>
    match said with
    | .needMore => some (p, pool)
    | _ => none

/-- **The message is incomplete, and there are as many free nodes as a call takes.** -/
structure Stocked (p : RespParser) (pool : NodePool) (free : List Nat) : Prop where
  front : ¬ p.rPos > p.bufCap / 2
  waits : parseValue p (p.wPos + 1) p.rPos = some .needMore
  nodes : FreeNodes pool free
  enough : takenValue p (p.wPos + 1) p.rPos ≤ free.length

section Again

variable {malloc : Nat → Bool} {p last : RespParser} {pool pool' : NodePool} {free : List Nat}

theorem length_granted_of_not_refused (grants : ¬ Refused malloc pool pool') :
    (granted malloc pool.asked pool'.asked).length = pool'.asked - pool.asked := by
  have all : granted malloc pool.asked pool'.asked =
      List.range' pool.asked (pool'.asked - pool.asked) := by
    refine List.filter_eq_self.mpr fun request member => ?_
    obtain ⟨low, high⟩ := List.mem_range'_1.mp member
    by_contra isRefused
    exact grants ⟨request, low, by omega, Bool.eq_false_iff.mpr isRefused⟩
  rw [all, List.length_range']

theorem compacted_front (valid : p.Valid) : ¬ (compacted p).rPos > (compacted p).bufCap / 2 := by
  unfold compacted
  split
  · rw [(respCompact_spec valid).2.2.2.1]
    exact Nat.not_lt_zero _
  · assumption

/-- After a call that needs more bytes there are enough free nodes. -/
theorem stocked_of_needMore (valid : p.Valid) (start : FreeNodes pool free)
    (runs : nextNodes malloc p pool = some (.needMore, last, pool')) :
    ∃ freed, Stocked last pool' freed := by
  obtain ⟨verdict, parsed⟩ := parseValue_compacted valid
  obtain ⟨said, poolAfter, parses, follows⟩ :=
    @parseValueNodes_follows malloc _ _ _ pool free verdict start parsed
  have spends := parseValueNodes_spends _ _ pool free verdict said poolAfter start parsed parses
  have returns : nextNodes malloc p pool = some _ := congrArg (Option.map _) parses
  rw [returns] at runs
  cases follows with
  | error => cases runs
  | refused => cases runs
  | ok => cases runs
  | @needMore freed owns =>
    cases runs
    rcases spends with ⟨failed, -⟩ | spends
    · cases failed
    · refine ⟨freed, compacted_front valid, parsed, owns.now, ?_⟩
      have count := owns.conserved.length_eq
      rw [List.length_append, List.length_append, length_granted_of_not_refused spends.granted,
        spends.asked, List.length_nil] at count
      change takenValue (compacted p) ((compacted p).wPos + 1) (compacted p).rPos ≤ freed.length
      omega

/-- **The next call asks for no node**, and leaves as many free. -/
theorem Stocked.again (stocked : Stocked p pool free) (malloc : Nat → Bool) : ∃ pool' freed,
    waitStep (p, pool) malloc = some (p, pool') ∧ pool'.asked = pool.asked ∧
      Stocked p pool' freed := by
  obtain ⟨said, pool', parses, follows⟩ :=
    @parseValueNodes_follows malloc p _ _ pool free _ stocked.nodes stocked.waits
  have enough := stocked.enough
  rcases parseValueNodes_spends _ _ pool free _ said pool' stocked.nodes stocked.waits parses with
    ⟨-, -, few⟩ | spends
  · omega
  have asked : pool'.asked = pool.asked := by
    rw [spends.asked, Nat.sub_eq_zero_of_le enough, Nat.add_zero]
  cases follows with
  | refused _ _ refused => exact absurd refused spends.granted
  | @needMore freed owns =>
    have returns : nextNodes malloc p pool = some (.needMore, p, pool') := by
      unfold nextNodes
      rw [if_neg stocked.front]
      dsimp only
      rw [parses]
      rfl
    refine ⟨pool', freed, ?_, asked, stocked.front, stocked.waits, owns.now, ?_⟩
    · rw [waitStep, returns]
      rfl
    · have count := owns.conserved.length_eq
      rw [List.length_append, List.length_append, length_granted_of_not_refused spends.granted,
        asked, List.length_nil] at count
      omega

/-- Any number of calls. -/
theorem Stocked.repeat : ∀ (mallocs : List (Nat → Bool)) {pool : NodePool} {free : List Nat},
    Stocked p pool free → ∃ pool', Run waitStep Always (p, pool) mallocs (p, pool') ∧
      pool'.asked = pool.asked := by
  intro mallocs
  induction mallocs with
  | nil => exact fun _ => ⟨_, .nil _, rfl⟩
  | cons malloc mallocs ih =>
    intro pool free stocked
    obtain ⟨next, freed, waits, asked, again⟩ := stocked.again malloc
    obtain ⟨pool', run, asked'⟩ := ih again
    exact ⟨pool', .cons trivial waits run, asked'.trans asked⟩

end Again

/-! ### Conservation -/

/-- **Nodes are conserved.** After every call of `resp_parser_next` the free nodes and those reachable
from the value are the nodes that were free and those that were granted, each once; no node is reachable
from the value of a call that does not accept, and `resp_value_release` puts all nodes of an accepted one
back. If more bytes are needed, no number of further calls asks for a node. -/
theorem nodes_conserved {p : RespParser} (valid : p.Valid) {pool : NodePool} {free : List Nat}
    (start : FreeNodes pool free) (malloc : Nat → Bool) : ∃ said last pool' free' used,
      nextNodes malloc p pool = some (said, last, pool') ∧ FreeNodes pool' free' ∧
      valueNodes pool' (outAfter said) = some used ∧
      (free' ++ used).Perm (free ++ granted malloc pool.asked pool'.asked) ∧ (free' ++ used).Nodup ∧
      ((∀ out, said ≠ .ok out) → used = []) ∧
      (∀ out, said = .ok out → ∃ released freed, respValueRelease pool' out = some released ∧
        FreeNodes released freed ∧ freed.Perm (free' ++ used)) ∧
      (said = .needMore → ∀ mallocs, ∃ again, Run waitStep Always (last, pool') mallocs (last, again) ∧
        again.asked = pool'.asked) := by
  obtain ⟨verdict, after, told, -⟩ := respParserNext_spec valid
  obtain ⟨said, last, pool', runs, follows, -⟩ := nextNodes_follows malloc start told
  cases follows with
  | @needMore free' owns =>
    obtain ⟨freed, stocked⟩ := stocked_of_needMore valid start runs
    exact ⟨_, last, pool', free', [], runs, owns.now, rfl, owns.conserved, owns.nodup, fun _ => rfl, nofun,
      fun _ mallocs => stocked.repeat mallocs⟩
  | @error free' owns =>
    exact ⟨_, last, pool', free', [], runs, owns.now, rfl, owns.conserved, owns.nodup, fun _ => rfl, nofun,
      nofun⟩
  | @refused free' _ owns =>
    exact ⟨_, last, pool', free', [], runs, owns.now, rfl, owns.conserved, owns.nodup, fun _ => rfl, nofun,
      nofun⟩
  | @ok free' used out value owns held =>
    refine ⟨_, last, pool', free', used, runs, owns.now, ?_, owns.conserved, owns.nodup, ?_, ?_, nofun⟩
    · exact valueNodes_of_valueAt owns.length_used held
    · exact fun other => absurd rfl (other out)
    · intro out' isOut
      cases isOut
      obtain ⟨released, freed, releases, owned, asked⟩ := respValueRelease_spec owns held
      refine ⟨released, freed, releases, owned.now, ?_⟩
      have all := owned.conserved
      rw [List.append_nil, asked] at all
      exact all.trans owns.conserved.symm

/-- A parser with an array of two elements in its buffer, of which the second has not arrived. -/
def sampleWaiting : RespParser := appendBytes ⟨fun _ => 0, 64, 0, 0⟩ (ascii "*2\r\n:1\r\n")

/-- One node is free and one is granted; then the incomplete array is parsed again with these. -/
theorem nodes_conserved_waiting : ∃ last pool' free',
    nextNodes (fun _ => true) sampleWaiting ⟨fun _ => zeroNode, some 0, 1⟩ = some (.needMore, last, pool') ∧
      FreeNodes pool' free' ∧ free'.Perm ([0] ++ granted (fun _ => true) 1 pool'.asked) ∧
      ∀ mallocs, ∃ again, Run waitStep Always (last, pool') mallocs (last, again) ∧
        again.asked = pool'.asked := by
  have valid : sampleWaiting.Valid := ⟨by decide, by decide, by decide⟩
  have start : FreeNodes ⟨fun _ => zeroNode, some 0, 1⟩ [0] :=
    ⟨⟨rfl, rfl⟩, by decide, by decide⟩
  have waits : (nextNodes (fun _ => true) sampleWaiting ⟨fun _ => zeroNode, some 0, 1⟩).map Prod.fst =
      some .needMore := by decide +kernel
  obtain ⟨said, last, pool', free', used, runs, now, -, conserved, -, none, -, again⟩ :=
    nodes_conserved valid start fun _ => true
  rw [runs] at waits
  cases Option.some.inj waits
  rw [none nofun, List.append_nil] at conserved
  exact ⟨last, pool', free', runs, now, conserved, again rfl⟩

end Zedis.Resp

/-
**Parsing and dispatching end on every buffer.**

A call of `resp_parser_next` returns, reads only bytes below `w_pos`, and consumes at least one byte if
it accepts; so after each round of `server_dispatch_commands` that handles a command and stays in the
loop there are fewer unread bytes (`Round.shrinks`), and the loop ends after at most one round for each
unread byte and one more (`dispatch_ends`).
-/

import Zedis.EventLoop.Reach
import Zedis.Resp.Consumed
import Zedis.Resp.Reads

namespace Zedis.EventLoop

open Zedis.Lib Zedis.Resp Zedis.Connection Zedis.Server

section Rounds

variable {s next : System} {fd : Nat} {conn : Conn}

/-- The parser of a connection, where a command leaves the parsers alone. -/
theorem parser_of_readers {server : ZedisServer} {parser : RespParser} {nodes : NodePool}
    (same : readers server.conns = readers (s.parsed fd parser nodes).server.conns)
    (member : conn ∈ server.conns) (isFd : conn.fd = fd) : conn.parser = parser := by
  have listed : (conn.fd, conn.parser) ∈ readers (s.parsed fd parser nodes).server.conns :=
    same ▸ List.mem_map_of_mem member
  obtain ⟨old, inside, isOld⟩ := List.mem_map.mp listed
  obtain ⟨sameFd, sameParser⟩ := Prod.mk.inj isOld
  obtain ⟨before, -, ⟨-, rfl⟩ | ⟨differs, rfl⟩⟩ := mem_changeConn inside
  · exact sameParser.symm
  · exact absurd (sameFd.trans isFd) differs

/-- **A round leaves the loop, or there are fewer unread bytes.** -/
theorem Round.shrinks (inv : SystemInv s) (phase : s.phase = .dispatching fd)
    (found : connOf s.server fd = some conn) {malloc : Nat → Bool} (round : Round s fd conn malloc next) :
    next.phase = .reading fd ∨ next.phase = .waiting ∨ next.phase = .dispatching fd ∧
      ∀ after ∈ next.server.conns, after.fd = fd →
        (unread after.parser).length < (unread conn.parser).length := by
  cases round with
  | waits => exact Or.inl rfl
  | protests => exact Or.inr (Or.inl rfl)
  | destroys => exact Or.inr (Or.inl rfl)
  | handles parser nodes released out cmd rest server runs decoded ends releases asked =>
    refine Or.inr (Or.inr ⟨phase, fun after member isFd => ?_⟩)
    obtain ⟨inConns, isConn⟩ := connOf_spec found
    have valid : conn.parser.Valid := (inv.parsers _ (List.mem_map_of_mem inConns)).valid
    obtain ⟨free, start⟩ := inv.nodes fd (isConn ▸ List.mem_map_of_mem inConns)
    obtain ⟨said, last, pool', again, progress⟩ :=
      nextNodes_progress valid start (grants s.slab (s.memory fd).nodes.asked malloc)
    cases runs.symm.trans again
    obtain ⟨_, _, ends', -, same⟩ := dispatchCommand_cases (inv.parsed_server fd parser nodes) fd cmd
    cases ends.symm.trans ends'
    rw [parser_of_readers same member isFd]
    exact progress.shrinks valid

/-- **`server_dispatch_commands` ends**: it returns to `conn_on_readable`, or the connection is destroyed.
The rounds are at most the unread bytes and one more. -/
theorem dispatch_ends : ∀ (bound : Nat) {s : System} {conn : Conn} (mallocs : Nat → Nat → Bool),
    SystemInv s → s.phase = .dispatching fd → connOf s.server fd = some conn →
      (unread conn.parser).length < bound → ∃ rounds next, rounds ≤ bound ∧
        Run systemStep Always s ((List.range rounds).map fun round => .parse (mallocs round)) next ∧
        (next.phase = .reading fd ∨ next.phase = .waiting) := by
  intro bound
  induction bound with
  | zero => exact fun _ _ _ _ few => absurd few (Nat.not_lt_zero _)
  | succ bound ih =>
    intro s conn mallocs inv phase found few
    obtain ⟨next, taken, round, kept⟩ := parse_returns inv phase found (mallocs 0)
    have once : Run systemStep Always s [.parse (mallocs 0)] next := .cons trivial taken (.nil next)
    rcases round.shrinks inv phase found with back | gone | ⟨stays, fewer⟩
    · exact ⟨1, next, Nat.le_add_left 1 bound, once, Or.inl back⟩
    · exact ⟨1, next, Nat.le_add_left 1 bound, once, Or.inr gone⟩
    · have present := kept.target fd (by rw [stays]; rfl)
      obtain ⟨after, member, isFd⟩ := List.mem_map.mp present
      obtain ⟨rounds, last, few', run, ended⟩ := ih (fun round => mallocs (round + 1)) kept stays
        (isFd ▸ connOf_of_mem kept.server member) (by have := fewer after member isFd; omega)
      refine ⟨rounds + 1, last, Nat.succ_le_succ few', ?_, ended⟩
      rw [List.range_succ_eq_map, List.map_cons, List.map_map]
      exact once.append run

end Rounds

/-- **Parsing is total, makes progress and stays in bounds.** For every buffer that `malloc` can have
granted, with any bytes and positions, and for every list of free nodes and every answer of the
allocators: `resp_parser_next` returns, without a read at or above `w_pos`, and makes progress if it
accepts; and `server_dispatch_commands` on this buffer ends. -/
theorem parsing_total {p : RespParser} (valid : p.Valid) {pool : NodePool} {free : List Nat}
    (start : FreeNodes pool free) (malloc : Nat → Bool) :
    (∃ said last pool', nextNodes malloc p pool = some (said, last, pool') ∧
      nextReads malloc p pool = some (said, last, pool') ∧ Progress p pool' said last) ∧
    ∀ s fd conn (mallocs : Nat → Nat → Bool), SystemInv s → s.phase = .dispatching fd →
      connOf s.server fd = some conn → conn.parser = p → ∃ rounds next,
        rounds ≤ (unread p).length + 1 ∧
        Run systemStep Always s ((List.range rounds).map fun round => .parse (mallocs round)) next ∧
        (next.phase = .reading fd ∨ next.phase = .waiting) := by
  obtain ⟨said, last, pool', runs, progress⟩ := nextNodes_progress valid start malloc
  refine ⟨⟨said, last, pool', runs, (nextReads_eq valid malloc pool).trans runs, progress⟩, ?_⟩
  rintro s fd conn mallocs inv phase found rfl
  exact dispatch_ends _ mallocs inv phase found (Nat.lt_succ_self _)

/-- A client announces an array of `2 ^ 63 - 1` elements, and sends one. -/
def sampleAnnounces : List SystemEvent :=
  sampleOpens 5 [] ++ [.ready 5, .read (.data (ascii "*9223372036854775807\r\nPING\r\n"))]

/-- On its buffer a call returns, and the loop ends. -/
theorem parsing_total_announced : ∃ start s conn,
    systemCreate sampleConfig (some fun _ => 0) (fun _ => 0) = some start ∧
      Run systemStep Always start sampleAnnounces s ∧ connOf s.server 5 = some conn ∧
      (∃ said last pool', nextReads (fun _ => true) conn.parser (s.memory 5).nodes =
        some (said, last, pool') ∧ Progress conn.parser pool' said last) ∧
      ∃ rounds next, Run systemStep Always s ((List.range rounds).map fun _ => .parse fun _ => true) next ∧
        (next.phase = .reading 5 ∨ next.phase = .waiting) := by
  have shown : (sampleSystem sampleConfig sampleAnnounces).bind (fun s =>
      (connOf s.server 5).map fun _ => s.phase) = some (.dispatching 5) := by decide +kernel
  obtain ⟨s, returned, seen⟩ := Option.bind_eq_some_iff.mp shown
  obtain ⟨conn, found, phase⟩ := Option.map_eq_some_iff.mp seen
  obtain ⟨start, made, run⟩ := sampleSystem_run returned
  have inv := systemInv_of_run made run
  obtain ⟨member, isFd⟩ := connOf_spec found
  obtain ⟨free, nodes⟩ := inv.nodes 5 (isFd ▸ List.mem_map_of_mem member)
  obtain ⟨⟨said, last, pool', -, reads, progress⟩, ends⟩ :=
    parsing_total (inv.parsers _ (List.mem_map_of_mem member)).valid nodes fun _ => true
  obtain ⟨rounds, next, -, loops, ended⟩ := ends s 5 conn (fun _ _ => true) inv phase found rfl
  exact ⟨start, s, conn, made, run, found, ⟨said, last, pool', reads, progress⟩, rounds, next, loops, ended⟩

end Zedis.EventLoop

/-
**The connection limit.**

`server_on_accept` compares `conn_count` with the limit once, before its loop, and the loop accepts
until the backlog is empty. So the limit is kept exactly as long as the loop never takes a connection
off the backlog that it can set up while the limit is reached (`connection_limit_iff`).
-/

import Zedis.EventLoop.Reach

namespace Zedis.EventLoop

open Zedis.Lib Zedis.Slab Zedis.Server

/-- The condition on an event: a connection that can be set up is accepted below the limit. -/
def BelowLimit (s : System) : SystemEvent → Prop
  | .accept (some arrival) => arrival.nonblocking = true → Supplied s arrival →
      s.connCount < s.maxConnections
  | _ => True

section Limit

variable {s next : System} {event : SystemEvent}

/-- A destroyed connection is no longer counted. -/
theorem connCount_connFreed (s : System) (server : ZedisServer) (fd : Nat) :
    (connFreed s server fd).connCount ≤ s.connCount := by
  change (if s.connCount > 0 then s.connCount - 1 else s.connCount) ≤ s.connCount
  split
  · exact Nat.sub_le _ _
  · exact Nat.le_refl _

theorem Round.connCount {fd : Nat} {conn : Connection.Conn} {malloc : Nat → Bool}
    (round : Round s fd conn malloc next) :
    next.connCount ≤ s.connCount ∧ next.maxConnections = s.maxConnections := by
  cases round with
  | waits => exact ⟨Nat.le_refl _, rfl⟩
  | protests parser nodes => exact ⟨connCount_connFreed (s.parsed fd parser nodes) _ fd, rfl⟩
  | destroys parser nodes => exact ⟨connCount_connFreed (s.parsed fd parser nodes) _ fd, rfl⟩
  | handles => exact ⟨Nat.le_refl _, rfl⟩

/-- **Only a connection that is set up is counted**, and nothing changes the limit. -/
theorem Stepped.connCount (stepped : Stepped s event next) :
    next.maxConnections = s.maxConnections ∧
      (BelowLimit s event ∧ next.connCount ≤ s.connCount ∨
        (BelowLimit s event ↔ s.connCount < s.maxConnections) ∧
          next.connCount = s.connCount + 1) := by
  cases stepped with
  | turns event phase _ notAccept =>
    refine ⟨rfl, Or.inl ⟨?_, Nat.le_refl _⟩⟩
    unfold BelowLimit
    split
    · exact absurd rfl (notAccept _)
    · trivial
  | drops arrival _ refused =>
    exact ⟨rfl, Or.inl ⟨fun nonblocking supplied => absurd ⟨nonblocking, supplied⟩ refused,
      Nat.le_refl _⟩⟩
  | opens arrival buf conn writeBuf _ _ nonblocking buffer head head' =>
    have supplied : Supplied s arrival := by
      rw [Supplied, buffer, head, head']
      exact ⟨rfl, rfl, rfl⟩
    exact ⟨rfl, Or.inr ⟨⟨fun below => below nonblocking supplied, fun below _ _ => below⟩, rfl⟩⟩
  | adds => exact ⟨rfl, Or.inl ⟨trivial, Nat.le_refl _⟩⟩
  | gives fd => exact ⟨rfl, Or.inl ⟨trivial, connCount_connFreed s (connDestroy s.server fd) fd⟩⟩
  | flushes => exact ⟨rfl, Or.inl ⟨trivial, Nat.le_refl _⟩⟩
  | breaks fd conn => exact ⟨rfl, Or.inl ⟨trivial, connCount_connFreed s _ fd⟩⟩
  | ends fd => exact ⟨rfl, Or.inl ⟨trivial, connCount_connFreed s _ fd⟩⟩
  | reads => exact ⟨rfl, Or.inl ⟨trivial, Nat.le_refl _⟩⟩
  | round fd conn malloc _ _ _ round =>
    exact ⟨round.connCount.2, Or.inl ⟨trivial, round.connCount.1⟩⟩

/-- **The limit is kept throughout a run exactly if each connection that is set up is accepted below
it.** -/
theorem connection_limit_iff {config : ZedisConfig} {mapped : Option (Nat → UInt8)}
    {stack : Nat → UInt8} {start : System} {events : List SystemEvent}
    (made : systemCreate config mapped stack = some start)
    (run : Run systemStep Always start events s) :
    (∀ n middle, Run systemStep Always start (events.take n) middle →
        middle.connCount ≤ config.maxConnections) ↔
      Run systemStep BelowLimit start events s := by
  have created := systemCreate_created made
  refine Run.throughout_iff
    (fun s => SystemInv s ∧ s.maxConnections = config.maxConnections)
    (fun s => s.connCount ≤ config.maxConnections)
    (fun s event next ⟨inv, max⟩ _ taken =>
      ⟨inv.step taken, (systemStep_stepped inv taken).connCount.1.trans max⟩)
    (fun s event next ⟨inv, max⟩ kept taken => ?_) run
    ⟨created.inv, created.maxConnections⟩ (by rw [created.connCount]; exact Nat.zero_le _)
  obtain ⟨-, ⟨below, fewer⟩ | ⟨below, more⟩⟩ := (systemStep_stepped inv taken).connCount
  · exact ⟨fun _ => below, fun _ => fewer.trans kept⟩
  · rw [more, below, max]
    exact Iff.rfl

/-- One connection, for a limit of one. -/
theorem connection_limit_iff_one : ∃ start s,
    systemCreate sampleConfig (some fun _ => 0) (fun _ => 0) = some start ∧
      Run systemStep Always start (sampleOpens 5 []) s ∧
      ∀ n middle, Run systemStep Always start ((sampleOpens 5 []).take n) middle →
        middle.connCount ≤ 1 := by
  have counts : ((systemCreate sampleConfig (some fun _ => 0) fun _ => 0).bind fun start =>
      (systemStep start .incoming).bind fun accepting =>
        (replay systemStep accepting (sampleOpens 5 []).tail).map fun _ =>
          (accepting.connCount, accepting.maxConnections)) = some (0, 1) := by decide +kernel
  obtain ⟨start, made, counts⟩ := Option.bind_eq_some_iff.mp counts
  obtain ⟨accepting, taken, counts⟩ := Option.bind_eq_some_iff.mp counts
  obtain ⟨s, replayed, counts⟩ := Option.map_eq_some_iff.mp counts
  obtain ⟨count, max⟩ := Prod.mk.inj counts
  have run : Run systemStep Always start (sampleOpens 5 []) s :=
    .cons trivial taken (Run.of_replay (fun _ _ _ => trivial) replayed)
  obtain ⟨opened, accepts, replayed⟩ := Option.bind_eq_some_iff.mp replayed
  have below : BelowLimit accepting
      (.accept (some ⟨5, true, some fun _ => 0, fun _ => 0, []⟩)) := by
    intro _ _
    rw [count, max]
    exact Nat.one_pos
  refine ⟨start, s, made, run, (connection_limit_iff made run).mpr (.cons trivial taken
    (.cons below accepts (Run.of_replay (fun _ event member => ?_) replayed)))⟩
  rcases List.mem_cons.mp member with rfl | member
  · trivial
  · rw [List.mem_singleton.mp member]
    trivial

/-- **Two connections are accepted at once, for a limit of one.** -/
theorem backlog_exceeds_limit : ∃ start s,
    systemCreate sampleConfig (some fun _ => 0) (fun _ => 0) = some start ∧
      Run systemStep Always start [.incoming,
        .accept (some ⟨5, true, some fun _ => 0, fun _ => 0, []⟩), .added true,
        .accept (some ⟨6, true, some fun _ => 0, fun _ => 0, []⟩), .added true, .accept none] s ∧
      s.connCount = 2 ∧ sampleConfig.maxConnections = 1 := by
  have shown : (sampleSystem sampleConfig [.incoming,
      .accept (some ⟨5, true, some fun _ => 0, fun _ => 0, []⟩), .added true,
      .accept (some ⟨6, true, some fun _ => 0, fun _ => 0, []⟩), .added true, .accept none]).map
        System.connCount = some 2 := by decide +kernel
  obtain ⟨s, returned, count⟩ := Option.map_eq_some_iff.mp shown
  obtain ⟨start, made, run⟩ := sampleSystem_run returned
  exact ⟨start, s, made, run, count, rfl⟩

end Limit

end Zedis.EventLoop

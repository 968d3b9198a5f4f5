/-
**The event loop and the edge-triggered notifications of the kernel (`src/event_loop.c`).**

All sockets are watched with `EPOLLET`: the kernel queues a socket when something happens to it, and
`epoll_wait` hands it out once. `event_loop_run_once` then calls the handlers of a batch one after the
other. Here the system runs beside the sockets: the bytes that were received and not read yet, the
clients in the backlog, and the queue of `epoll`. `EPOLL_CTL_ADD` and `EPOLL_CTL_MOD` poll a socket, so
that it is queued if it is ready at that time.

* `no_lost_wakeups`: a connection with unread bytes, or whose peer is gone, is queued, handed out, or
  being read. This rests on two things: `conn_on_readable` reads until `EAGAIN`, and
  `conn_on_writable`, which does not read, modifies the registration whenever it returns.
* `clients_stranded_iff`: clients wait in the backlog and nobody knows, exactly if `server_on_accept`
  has returned before the backlog was empty, because of the limit or a failed `accept`, while the
  listening socket was not queued again, and no client has connected since. Connections that are closed
  in the meantime do not help.
-/

import Zedis.EventLoop.Reach
import Zedis.Lib.EdgeTriggered

namespace Zedis.EventLoop

open Zedis.Lib Zedis.Arena Zedis.Slab Zedis.Server Zedis.Connection

/-- `ZEDIS_MAX_EVENTS`. -/
def zedisMaxEvents : Nat := 1024

/-! ### Sockets -/

/-- What is watched: the listening socket, and the connections. -/
inductive Source
  | listener
  | conn (fd : Nat)
deriving DecidableEq, Repr

/-- The sockets: the clients in the backlog, and for each connection the number of bytes that were
received and not read, and whether its peer has closed it; `queued` is the queue of `epoll`. -/
structure Sockets where
  backlog : Nat
  unread : Nat → Nat
  hungUp : Nat → Bool
  queued : Source → Bool

/-- Whether `accept` or `read` would not return `EAGAIN`. -/
def Sockets.ready (k : Sockets) : Source → Bool
  | .listener => decide (0 < k.backlog)
  | .conn fd => decide (0 < k.unread fd) || k.hungUp fd

/-- A socket is polled: it is queued if it is ready. -/
def Sockets.poll (k : Sockets) (source : Source) : Sockets :=
  { k with queued := Function.update k.queued source (k.queued source || k.ready source) }

/-- The sockets after an answer to `read`; `none` for an answer that the kernel does not give. -/
def Sockets.answers (k : Sockets) (fd : Nat) : ReadResult → Option Sockets
  | .again => if k.ready (.conn fd) then none else some k
  | .fails => some k
  | .closes => if k.unread fd = 0 ∧ k.hungUp fd = true then some k else none
  | .data bytes =>
    if bytes.length ≤ k.unread fd then
      some { k with unread := Function.update k.unread fd (k.unread fd - bytes.length) }
    else none

/-- The system, the sockets, and the rest of the batch that `epoll_wait` has returned. -/
structure Polled where
  system : System
  sockets : Sockets
  batch : List Source

/-- The listening socket and the registered connections are watched. -/
def Polled.watched (p : Polled) : Source → Bool
  | .listener => true
  | .conn fd => p.system.registered fd

/-- What happens next: a client connects; bytes arrive, or the peer closes; a socket is queued for
another reason, such as room for output; `epoll_wait` returns; the next handler of the batch is called;
and the steps of a handler. A connection that `accept` returns may have received bytes before. -/
inductive PollEvent
  | connects
  | arrives (fd n : Nat)
  | hangsUp (fd : Nat)
  | signals (fd : Nat)
  | wait (events : List Source)
  | dispatch
  | accept (arrival : Option Arrival) (unread : Nat) (hungUp : Bool)
  | added (ok : Bool)
  | read (answer : ReadResult)
  | parse (malloc : Nat → Bool)

/-- Something happens to a connection. -/
def Polled.edge (p : Polled) (fd : Nat) (k : Sockets) : Polled :=
  { p with sockets := { k with
    queued := Function.update k.queued (.conn fd) (k.queued (.conn fd) || p.system.registered fd) } }

/-- The loop of `event_loop_run_once`: the handler of the next event, if there is one.
`conn_on_writable` ends with `event_loop_mod`, unless it destroys the connection. -/
def dispatchStep (p : Polled) : Option Polled :=
  match p.batch with
  | [] => none
  | .listener :: rest => (systemStep p.system .incoming).map fun s => ⟨s, p.sockets, rest⟩
  | .conn fd :: rest =>
    if p.system.phase = .waiting then
      match p.system.handlerOf fd with
      | none => some { p with batch := rest }
      | some handler => (systemStep p.system (.ready fd)).map fun s =>
        ⟨s, if handler = .connOnWritable ∧ s.registered fd = true then p.sockets.poll (.conn fd)
          else p.sockets, rest⟩
    else none

/-- The state an event leaves; `none` for one that cannot happen. -/
def pollStep (p : Polled) : PollEvent → Option Polled
  | .connects => some { p with sockets := { p.sockets with
      backlog := p.sockets.backlog + 1, queued := Function.update p.sockets.queued .listener true } }
  | .arrives fd n =>
    if connected p.system.server fd ∧ 0 < n then
      some (p.edge fd { p.sockets with
        unread := Function.update p.sockets.unread fd (p.sockets.unread fd + n) })
    else none
  | .hangsUp fd =>
    if connected p.system.server fd then
      some (p.edge fd { p.sockets with hungUp := Function.update p.sockets.hungUp fd true })
    else none
  | .signals fd => some (p.edge fd p.sockets)
  | .wait events =>
    if p.system.phase = .waiting ∧ p.batch = [] ∧ events.Nodup ∧ events.length ≤ zedisMaxEvents ∧
        ∀ source ∈ events, p.watched source = true ∧ p.sockets.queued source = true then
      some ⟨p.system, { p.sockets with
        queued := fun source => p.sockets.queued source && decide (source ∉ events) }, events⟩
    else none
  | .dispatch => dispatchStep p
  | .accept none _ _ => (systemStep p.system (.accept none)).map fun s => { p with system := s }
  | .accept (some arrival) unread hungUp =>
    if p.sockets.backlog = 0 then none
    else (systemStep p.system (.accept (some arrival))).map fun s =>
      ⟨s, { backlog := p.sockets.backlog - 1
            unread := Function.update p.sockets.unread arrival.fd unread
            hungUp := Function.update p.sockets.hungUp arrival.fd hungUp
            queued := Function.update p.sockets.queued (.conn arrival.fd) false }, p.batch⟩
  | .added ok =>
    match p.system.phase with
    | .registering fd => (systemStep p.system (.added ok)).map fun s =>
      ⟨s, if s.registered fd then p.sockets.poll (.conn fd) else p.sockets, p.batch⟩
    | _ => none
  | .read answer =>
    match p.system.phase with
    | .reading fd => (p.sockets.answers fd answer).bind fun sockets =>
      (systemStep p.system (.read answer)).map fun s => ⟨s, sockets, p.batch⟩
    | _ => none
  | .parse malloc => (systemStep p.system (.parse malloc)).map fun s => { p with system := s }

/-- The sockets after `zedis_create`: the listening socket is registered, and some clients may have
connected already. -/
def startSockets (backlog : Nat) : Sockets :=
  ⟨backlog, fun _ => 0, fun _ => false, fun source => decide (source = .listener ∧ 0 < backlog)⟩

/-! ### The loop as the client of a notifier -/

/-- What the handler under way attends to. -/
def Phase.attends : Phase → Option Source
  | .waiting => none
  | .accepting => some .listener
  | .registering _ => some .listener
  | .reading fd => some (.conn fd)
  | .dispatching fd => some (.conn fd)

/-- The notifier. -/
def Polled.view (p : Polled) : Notifier Source :=
  ⟨p.watched, p.sockets.ready, p.sockets.queued, p.batch, p.system.phase.attends⟩

/-- The listening socket is left before the backlog is empty. -/
def Abandons (p : Polled) (event : PollEvent) : Prop :=
  0 < p.sockets.backlog ∧ p.sockets.queued .listener = false ∧
    ((event = .dispatch ∧ p.batch.head? = some .listener ∧
        p.system.connCount ≥ p.system.maxConnections) ∨
      ∃ unread hungUp, event = .accept none unread hungUp)

/-- The event is not about the listening socket. -/
def PollEvent.Aside : PollEvent → Prop
  | .connects | .dispatch | .accept _ _ _ => False
  | _ => True

/-- **What an event can do to the notifier.** -/
inductive Notified (p : Polled) : PollEvent → Notifier Source → Prop
  | connects : Notified p .connects (p.view.rises .listener)
  | arrives (event : PollEvent) (fd : Nat) : event.Aside → Notified p event (p.view.rises (.conn fd))
  | signals (fd : Nat) : Notified p (.signals fd) (p.view.signals (.conn fd))
  | hands (events : List Source) : p.batch = [] → p.view.attended = none → events.Nodup →
      (∀ source ∈ events, p.watched source = true ∧ p.sockets.queued source = true) →
      Notified p (.wait events) (p.view.handsOut events)
  | begins (source : Source) (rest : List Source) : p.batch = source :: rest → p.view.attended = none →
      (source = .listener → p.system.connCount < p.system.maxConnections) →
      Notified p .dispatch (p.view.attends source rest)
  | passes (rest : List Source) : p.batch = .listener :: rest → p.view.attended = none →
      p.system.connCount ≥ p.system.maxConnections →
      Notified p .dispatch (p.view.attends .listener rest).leaves
  | flushes (fd : Nat) (rest : List Source) : p.batch = .conn fd :: rest → p.view.attended = none →
      Notified p .dispatch ((p.view.attends (.conn fd) rest).polls (.conn fd)).leaves
  | breaks (fd : Nat) (rest : List Source) : p.batch = .conn fd :: rest → p.view.attended = none →
      Notified p .dispatch ((p.view.attends (.conn fd) rest).unwatches (.conn fd)).leaves
  | returns (unread : Nat) (hungUp : Bool) : p.view.attended = some .listener →
      Notified p (.accept none unread hungUp) p.view.leaves
  | accepts (arrival : Arrival) (unread : Nat) (hungUp : Bool) (more ready : Bool) :
      p.view.attended = some .listener → p.watched (.conn arrival.fd) = false →
      Notified p (.accept (some arrival) unread hungUp)
        ((p.view.setReady .listener more).renews (.conn arrival.fd) ready)
  | adds (ok : Bool) (fd : Nat) : p.view.attended = some .listener →
      Notified p (.added ok) (p.view.watches (.conn fd))
  | goesOn (event : PollEvent) : event.Aside → Notified p event p.view
  | reads (bytes : Bytes) (fd : Nat) (more : Bool) : p.view.attended = some (.conn fd) →
      Notified p (.read (.data bytes)) (p.view.setReady (.conn fd) more)
  | finishes (fd : Nat) : p.view.attended = some (.conn fd) → p.view.ready (.conn fd) = false →
      Notified p (.read .again) p.view.leaves
  | closes (event : PollEvent) (fd : Nat) (more : Bool) : event.Aside →
      p.view.attended = some (.conn fd) →
      Notified p event ((p.view.setReady (.conn fd) more).unwatches (.conn fd)).leaves

section Steps

variable {p next : Polled} {event : PollEvent}

/-- **Everything a round of `server_dispatch_commands` can do to the registration.** -/
theorem Round.registration {s after : System} {fd : Nat} {conn : Conn} {malloc : Nat → Bool}
    (round : Round s fd conn malloc after) (phase : s.phase = .dispatching fd) :
    after.registered = s.registered ∧ after.phase.attends = some (.conn fd) ∨
      after.registered = Function.update s.registered fd false ∧ after.phase = .waiting := by
  cases round with
  | waits => exact Or.inl ⟨rfl, rfl⟩
  | protests => exact Or.inr ⟨rfl, rfl⟩
  | destroys => exact Or.inr ⟨rfl, rfl⟩
  | handles =>
    refine Or.inl ⟨rfl, ?_⟩
    change s.phase.attends = _
    rw [phase]
    rfl

theorem ready_unread (k : Sockets) (fd n : Nat) :
    Sockets.ready { k with unread := Function.update k.unread fd n } =
      Function.update k.ready (.conn fd) (decide (0 < n) || k.hungUp fd) := by
  funext source
  cases source with
  | listener => rfl
  | conn other =>
    by_cases same : other = fd
    · subst same
      simp [Sockets.ready]
    · have differs : Source.conn other ≠ .conn fd := fun equal => same (Source.conn.inj equal)
      simp [Sockets.ready, Function.update_of_ne same, Function.update_of_ne differs]

theorem ready_hungUp (k : Sockets) (fd : Nat) :
    Sockets.ready { k with hungUp := Function.update k.hungUp fd true } =
      Function.update k.ready (.conn fd) true := by
  funext source
  cases source with
  | listener => rfl
  | conn other =>
    by_cases same : other = fd
    · subst same
      simp [Sockets.ready]
    · have differs : Source.conn other ≠ .conn fd := fun equal => same (Source.conn.inj equal)
      simp [Sockets.ready, Function.update_of_ne same, Function.update_of_ne differs]

/-- A connection is registered, or is no longer. -/
theorem watched_update {s : System} {k : Sockets} {batch : List Source} {fd : Nat} {on : Bool}
    (registered : s.registered = Function.update p.system.registered fd on) :
    Polled.watched ⟨s, k, batch⟩ = Function.update p.watched (.conn fd) on := by
  funext source
  cases source with
  | listener => rfl
  | conn other =>
    change s.registered other = _
    rw [registered]
    by_cases same : other = fd
    · subst same
      simp
    · have differs : Source.conn other ≠ .conn fd := fun equal => same (Source.conn.inj equal)
      rw [Function.update_of_ne same, Function.update_of_ne differs]
      rfl

theorem connected_of_registered {s : System} (inv : SystemInv s) {fd : Nat} (registered : s.registered fd = true) :
    ∃ conn, connOf s.server fd = some conn ∧
      s.handlerOf fd = some (if conn.armed then .connOnWritable else .connOnReadable) := by
  obtain ⟨conn, member, isFd⟩ := List.mem_map.mp ((inv.registered fd).mp registered).1
  have found := connOf_of_mem inv.server member
  rw [isFd] at found
  refine ⟨conn, found, ?_⟩
  rw [System.handlerOf, if_pos registered, found, Option.map_some]

theorem attended_of_phase {phase : Phase} (isPhase : p.system.phase = phase) :
    p.view.attended = phase.attends := congrArg Phase.attends isPhase

/-- The handler of a connection is called. -/
theorem readyStep_notified {fd : Nat} {rest : List Source} {conn : Conn} {handler : Handler}
    (isBatch : p.batch = .conn fd :: rest) (phase : p.system.phase = .waiting)
    (registered : p.system.registered fd = true)
    (isHandler : handler = if conn.armed then .connOnWritable else .connOnReadable) :
    Notified p .dispatch (Polled.view ⟨readyStep p.system fd conn,
      if handler = .connOnWritable ∧ (readyStep p.system fd conn).registered fd = true then
        p.sockets.poll (.conn fd) else p.sockets, rest⟩) := by
  have idle : p.view.attended = none := attended_of_phase phase
  unfold readyStep
  by_cases armed : conn.armed = true
  · simp only [isHandler, if_pos armed, true_and]
    cases fate : (connOnWritable conn).1 with
    | true =>
      have gone : (destroyConn (p.system.setConn fd fun _ => (connOnWritable conn).2) fd).registered fd =
          false := Function.update_self _ _ _
      have broken := Notified.breaks fd rest isBatch idle
      simp only [if_true, gone, Bool.false_eq_true, if_false]
      convert broken using 1
      exact Notifier.ext (watched_update rfl) rfl rfl rfl rfl
    | false =>
      have flushed := Notified.flushes fd rest isBatch idle
      have still : (p.system.setConn fd fun _ => (connOnWritable conn).2).registered fd = true :=
        registered
      simp only [Bool.false_eq_true, if_false, still, if_true]
      convert flushed using 1
      exact Notifier.ext rfl rfl rfl rfl idle
  · have begun := Notified.begins (.conn fd) rest isBatch idle fun same => by cases same
    simp only [isHandler, if_neg armed, reduceCtorEq, false_and, if_false]
    exact begun

/-- The loop of `event_loop_run_once`. -/
theorem dispatchStep_notified (inv : SystemInv p.system)
    (watched : ∀ source ∈ p.batch, p.watched source = true) (taken : dispatchStep p = some next) :
    Notified p .dispatch next.view ∧ SystemInv next.system := by
  unfold dispatchStep at taken
  split at taken
  · cases taken
  · rename_i rest isBatch
    obtain ⟨s, called, rfl⟩ := Option.map_eq_some_iff.mp taken
    refine ⟨?_, inv.step called⟩
    rw [systemStep] at called
    split at called
    · rename_i phase
      cases called
      have idle : p.view.attended = none := attended_of_phase phase
      by_cases full : p.system.connCount ≥ p.system.maxConnections
      · have passed := Notified.passes rest isBatch idle full
        simp only [if_pos full]
        exact passed
      · have begun := Notified.begins .listener rest isBatch idle fun _ => Nat.not_le.mp full
        simp only [if_neg full]
        exact begun
    · cases called
  · rename_i fd rest isBatch
    obtain ⟨phase, called⟩ := Option.ite_none_right_eq_some.mp taken
    have registered : p.system.registered fd = true :=
      watched (.conn fd) (by rw [isBatch]; exact List.mem_cons_self)
    obtain ⟨conn, found, isHandler⟩ := connected_of_registered inv registered
    rw [isHandler] at called
    obtain ⟨s, readied, same⟩ := Option.map_eq_some_iff.mp called
    have kept := inv.step readied
    simp only [systemStep, phase, if_pos registered, found, Option.map_some, Option.some.injEq] at readied
    subst readied
    subst same
    exact ⟨readyStep_notified isBatch phase registered rfl, kept⟩

/-- `accept` leaves one client less in the backlog, and a connection that is not watched yet. -/
theorem ready_accept (k : Sockets) (fd unread : Nat) (hungUp : Bool) (queued : Source → Bool) :
    Sockets.ready ⟨k.backlog - 1, Function.update k.unread fd unread, Function.update k.hungUp fd hungUp,
      queued⟩ = Function.update (Function.update k.ready .listener (decide (0 < k.backlog - 1))) (.conn fd)
        (decide (0 < unread) || hungUp) := by
  funext source
  cases source with
  | listener => rfl
  | conn other =>
    by_cases same : other = fd
    · subst same
      simp [Sockets.ready]
    · have differs : Source.conn other ≠ .conn fd := fun equal => same (Source.conn.inj equal)
      simp [Sockets.ready, Function.update_of_ne same, Function.update_of_ne differs]

/-- The loop of `server_on_accept`, for one client. -/
theorem acceptStep_notified {arrival : Arrival} {unread : Nat} {hungUp : Bool} (inv : SystemInv p.system)
    (taken : pollStep p (.accept (some arrival) unread hungUp) = some next) :
    Notified p (.accept (some arrival) unread hungUp) next.view ∧ SystemInv next.system := by
  obtain ⟨-, taken⟩ := Option.ite_none_left_eq_some.mp taken
  obtain ⟨s, called, rfl⟩ := Option.map_eq_some_iff.mp taken
  refine ⟨?_, inv.step called⟩
  rw [systemStep] at called
  split at called
  · rename_i phase
    obtain ⟨fresh, result⟩ := acceptStep_cases called
    have attended : p.view.attended = some .listener := attended_of_phase phase
    have unwatched : p.watched (.conn arrival.fd) = false := by
      refine Bool.eq_false_iff.mpr fun registered => fresh ?_
      exact ((inv.registered arrival.fd).mp registered).1
    have sameRegistered : s.registered = p.system.registered ∧ s.phase.attends = some .listener := by
      rcases result with ⟨-, rfl⟩ | ⟨buf, conn, writeBuf, -, -, -, -, rfl⟩
      · exact ⟨rfl, attended⟩
      · exact ⟨rfl, rfl⟩
    convert Notified.accepts arrival unread hungUp (decide (0 < p.sockets.backlog - 1))
      (decide (0 < unread) || hungUp) attended unwatched using 1
    refine Notifier.ext ?_ (ready_accept p.sockets arrival.fd unread hungUp _) rfl rfl ?_
    · funext source
      cases source with
      | listener => rfl
      | conn fd => exact congrFun sameRegistered.1 fd
    · exact sameRegistered.2.trans attended.symm
  · cases called

/-- An answer to `read` is about its connection. -/
theorem answers_spec {k after : Sockets} {fd : Nat} {answer : ReadResult}
    (answered : k.answers fd answer = some after) :
    after.queued = k.queued ∧
      ∃ more, after.ready = Function.update k.ready (.conn fd) more := by
  cases answer with
  | again =>
    obtain ⟨-, same⟩ := Option.ite_none_left_eq_some.mp answered
    cases same
    exact ⟨rfl, _, (Function.update_eq_self _ _).symm⟩
  | fails =>
    cases answered
    exact ⟨rfl, _, (Function.update_eq_self _ _).symm⟩
  | closes =>
    obtain ⟨-, same⟩ := Option.ite_none_right_eq_some.mp answered
    cases same
    exact ⟨rfl, _, (Function.update_eq_self _ _).symm⟩
  | data bytes =>
    obtain ⟨-, same⟩ := Option.ite_none_right_eq_some.mp answered
    cases same
    exact ⟨rfl, _, ready_unread k fd _⟩

/-- `conn_on_readable` reads. -/
theorem readStep_notified {answer : ReadResult} (inv : SystemInv p.system)
    (taken : pollStep p (.read answer) = some next) :
    Notified p (.read answer) next.view ∧ SystemInv next.system := by
  rw [pollStep] at taken
  split at taken
  · rename_i fd phase
    obtain ⟨after, answered, taken⟩ := Option.bind_eq_some_iff.mp taken
    obtain ⟨s, called, rfl⟩ := Option.map_eq_some_iff.mp taken
    refine ⟨?_, inv.step called⟩
    have attended : p.view.attended = some (.conn fd) := attended_of_phase phase
    obtain ⟨sameQueue, more, isReady⟩ := answers_spec answered
    have closed : Notified p (.read answer) (Polled.view ⟨destroyConn p.system fd, after, p.batch⟩) := by
      convert Notified.closes (.read answer) fd more trivial attended using 1
      exact Notifier.ext (watched_update rfl) isReady sameQueue rfl rfl
    simp only [systemStep, phase] at called
    obtain ⟨conn, -, called⟩ := Option.bind_eq_some_iff.mp called
    unfold readStep at called
    split at called
    · cases called
      exact closed
    · cases answer with
      | again =>
        cases called
        obtain ⟨notReady, same⟩ := Option.ite_none_left_eq_some.mp answered
        cases same
        exact .finishes fd attended (Bool.eq_false_iff.mpr notReady)
      | fails =>
        cases called
        exact closed
      | closes =>
        cases called
        exact closed
      | data bytes =>
        obtain ⟨-, same⟩ := Option.ite_none_left_eq_some.mp called
        cases same
        convert Notified.reads bytes fd more attended using 1
        exact Notifier.ext rfl isReady sameQueue rfl attended.symm
  · cases taken

/-- The end of `server_on_accept`'s loop: `event_loop_add`. -/
theorem addStep_notified {ok : Bool} (inv : SystemInv p.system)
    (taken : pollStep p (.added ok) = some next) :
    Notified p (.added ok) next.view ∧ SystemInv next.system := by
  rw [pollStep] at taken
  split at taken
  · rename_i fd phase
    obtain ⟨s, called, rfl⟩ := Option.map_eq_some_iff.mp taken
    refine ⟨?_, inv.step called⟩
    have attended : p.view.attended = some .listener := attended_of_phase phase
    have before : p.system.registered fd = false := by
      refine Bool.eq_false_iff.mpr fun registered => ?_
      exact ((inv.registered fd).mp registered).2 phase
    simp only [systemStep, phase, Option.some.injEq] at called
    subst called
    unfold addStep
    split
    · have registered : Function.update p.system.registered fd true fd = true := Function.update_self _ _ _
      simp only [registered, if_true]
      convert Notified.adds ok fd attended using 1
      exact Notifier.ext (watched_update rfl) rfl rfl rfl attended.symm
    · have gone : (destroyConn p.system fd).registered fd = false := Function.update_self _ _ _
      simp only [gone, Bool.false_eq_true, if_false]
      convert Notified.goesOn (.added ok) trivial using 1
      refine Notifier.ext ?_ rfl rfl rfl attended.symm
      refine (watched_update rfl).trans ?_
      rw [← show p.watched (.conn fd) = false from before]
      exact Function.update_eq_self _ _
  · cases taken

/-- A round of `server_dispatch_commands`. -/
theorem dispatchRound_notified {malloc : Nat → Bool} (inv : SystemInv p.system)
    (taken : pollStep p (.parse malloc) = some next) :
    Notified p (.parse malloc) next.view ∧ SystemInv next.system := by
  obtain ⟨s, called, rfl⟩ := Option.map_eq_some_iff.mp taken
  refine ⟨?_, inv.step called⟩
  rw [systemStep] at called
  split at called
  · rename_i fd phase
    obtain ⟨conn, found, called⟩ := Option.bind_eq_some_iff.mp called
    obtain ⟨after, ends, round, -⟩ := dispatchRound_round inv phase found malloc
    cases ends.symm.trans called
    have attended : p.view.attended = some (.conn fd) := attended_of_phase phase
    rcases round.registration phase with ⟨sameRegistered, attends⟩ | ⟨unregistered, waits⟩
    · convert Notified.goesOn (.parse malloc) trivial using 1
      refine Notifier.ext ?_ rfl rfl rfl (attends.trans attended.symm)
      funext source
      cases source with
      | listener => rfl
      | conn other => exact congrFun sameRegistered other
    · convert Notified.closes (.parse malloc) fd (p.sockets.ready (.conn fd)) trivial attended using 1
      exact Notifier.ext (watched_update unregistered) (Function.update_eq_self _ _).symm rfl rfl
        (congrArg Phase.attends waits)
  · cases called

/-- **Everything an event can do to the notifier.** -/
theorem pollStep_notified (inv : SystemInv p.system)
    (watched : ∀ source ∈ p.batch, p.watched source = true) (taken : pollStep p event = some next) :
    Notified p event next.view ∧ SystemInv next.system := by
  cases event with
  | connects =>
    cases taken
    refine ⟨?_, inv⟩
    convert Notified.connects using 1
    refine Notifier.ext rfl ?_ ?_ rfl rfl
    · funext source
      cases source with
      | listener => simp [Polled.view, Sockets.ready, Notifier.rises, Notifier.setReady, Notifier.signals]
      | conn fd => rfl
    · funext source
      cases source with
      | listener => simp [Polled.view, Polled.watched, Notifier.rises, Notifier.setReady, Notifier.signals]
      | conn fd => rfl
  | arrives fd n =>
    obtain ⟨⟨-, positive⟩, same⟩ := Option.ite_none_right_eq_some.mp taken
    cases same
    refine ⟨?_, inv⟩
    convert Notified.arrives (.arrives fd n) fd trivial using 1
    refine Notifier.ext rfl ?_ rfl rfl rfl
    refine (ready_unread p.sockets fd _).trans ?_
    have more : 0 < p.sockets.unread fd + n := by omega
    simp [more, Polled.view, Notifier.rises, Notifier.setReady, Notifier.signals]
  | hangsUp fd =>
    obtain ⟨-, same⟩ := Option.ite_none_right_eq_some.mp taken
    cases same
    refine ⟨?_, inv⟩
    convert Notified.arrives (.hangsUp fd) fd trivial using 1
    exact Notifier.ext rfl (ready_hungUp p.sockets fd) rfl rfl rfl
  | signals fd =>
    cases taken
    exact ⟨.signals fd, inv⟩
  | wait events =>
    obtain ⟨⟨phase, empty, nodup, -, queued⟩, same⟩ := Option.ite_none_right_eq_some.mp taken
    cases same
    exact ⟨.hands events empty (attended_of_phase phase) nodup queued, inv⟩
  | dispatch => exact dispatchStep_notified inv watched taken
  | accept arrival unread hungUp =>
    cases arrival with
    | none =>
      obtain ⟨s, called, rfl⟩ := Option.map_eq_some_iff.mp taken
      refine ⟨?_, inv.step called⟩
      rw [systemStep] at called
      split at called
      · rename_i phase
        cases called
        exact Notified.returns unread hungUp (attended_of_phase phase)
      · cases called
    | some arrival => exact acceptStep_notified inv taken
  | added ok => exact addStep_notified inv taken
  | read answer => exact readStep_notified inv taken
  | parse malloc => exact dispatchRound_notified inv taken

/-- **An event keeps the sources in `kept`**, the listening socket too if it is not left too early. -/
theorem Notified.awake {kept : Source → Prop} {n : Notifier Source} (notified : Notified p event n)
    (awake : p.view.Awake kept) (stays : kept .listener → ¬ Abandons p event) : n.Awake kept := by
  cases notified with
  | connects => exact awake.rises _
  | arrives _ fd => exact awake.rises _
  | signals fd => exact awake.signals _
  | hands events empty idle nodup queued =>
    exact awake.handsOut empty idle nodup fun source member => (queued source member).1
  | begins source rest isBatch idle => exact awake.attends isBatch idle
  | passes rest isBatch idle full =>
    refine (awake.attends isBatch idle).leaves fun source attended isKept _ isReady => ?_
    cases attended
    refine Bool.not_eq_false _ |>.mp fun notQueued => stays isKept ?_
    refine ⟨of_decide_eq_true isReady, notQueued, Or.inl ⟨rfl, ?_, full⟩⟩
    rw [isBatch]
    rfl
  | flushes fd rest isBatch idle => exact (awake.attends isBatch idle).repolls rfl
  | breaks fd rest isBatch idle => exact (awake.attends isBatch idle).closes rfl
  | returns unread hungUp attended =>
    refine awake.leaves fun source isAttended isKept _ isReady => ?_
    cases attended.symm.trans isAttended
    refine Bool.not_eq_false _ |>.mp fun notQueued => stays isKept ?_
    exact ⟨of_decide_eq_true isReady, notQueued, Or.inr ⟨unread, hungUp, rfl⟩⟩
  | accepts arrival unread hungUp more ready attended unwatched =>
    have fresh : (p.view.setReady .listener more).watched (.conn arrival.fd) = false := unwatched
    exact (awake.setReady (Or.inl attended)).renews fresh ready
  | adds ok fd => exact awake.watches _
  | goesOn => exact awake
  | reads bytes fd more attended => exact awake.setReady (Or.inl attended)
  | finishes fd attended notReady =>
    refine awake.leaves fun source isAttended _ _ isReady => ?_
    cases attended.symm.trans isAttended
    cases notReady.symm.trans isReady
  | closes _ fd more _ attended => exact (awake.setReady (Or.inl attended)).closes attended

theorem PollEvent.Aside.stays (aside : event.Aside) : ¬ Abandons p event ∧ event ≠ .connects := by
  refine ⟨fun abandons => ?_, fun same => by rw [same] at aside; exact aside⟩
  rcases abandons.2.2 with ⟨isEvent, -⟩ | ⟨unread, hungUp, isEvent⟩
  · rw [isEvent] at aside
    exact aside
  · rw [isEvent] at aside
    exact aside

/-- An event that changes nothing for the listening socket. -/
theorem forgotten_aside {n : Notifier Source} (stays : ¬ Abandons p event ∧ event ≠ .connects)
    (same : n.Forgotten .listener ↔ p.view.Forgotten .listener) :
    n.Forgotten .listener ↔ Abandons p event ∨ p.view.Forgotten .listener ∧ event ≠ .connects := by
  rw [same, and_iff_left stays.2, or_iff_right stays.1]

/-- The listening socket is attended to, or has its turn: nothing is forgotten. -/
theorem Notified.attended_to {n : Notifier Source} (stays : ¬ Abandons p event)
    (before : ¬ p.view.Forgotten .listener) (after : ¬ n.Forgotten .listener) :
    n.Forgotten .listener ↔ Abandons p event ∨ p.view.Forgotten .listener ∧ event ≠ .connects := by
  refine iff_of_false after ?_
  rintro (abandons | ⟨lost, -⟩)
  · exact stays abandons
  · exact before lost

theorem not_abandons_conn {fd : Nat} {rest : List Source} (isBatch : p.batch = .conn fd :: rest) :
    ¬ Abandons p .dispatch ∧ PollEvent.dispatch ≠ .connects := by
  refine ⟨fun abandons => ?_, fun same => by cases same⟩
  rcases abandons.2.2 with ⟨-, isHead, -⟩ | ⟨unread, hungUp, same⟩
  · rw [isBatch] at isHead
    cases isHead
  · cases same

/-- **What an event does to clients that nobody knows of.** -/
theorem Notified.forgotten_iff {n : Notifier Source} (notified : Notified p event n)
    (awake : p.view.Awake (· ≠ .listener)) :
    n.Forgotten .listener ↔
      Abandons p event ∨ p.view.Forgotten .listener ∧ event ≠ .connects := by
  have apart : ∀ fd, Source.listener ≠ .conn fd := fun fd same => by cases same
  have other : ∀ fd, some (Source.conn fd) ≠ some .listener := fun fd same => by cases same
  cases notified with
  | connects =>
    refine iff_of_false (fun lost => ?_) ?_
    · have queued := lost.queued
      simp [Notifier.rises, Notifier.signals, Notifier.setReady, Polled.view, Polled.watched] at queued
    · rintro (⟨-, -, ⟨same, -⟩ | ⟨_, _, same⟩⟩ | ⟨-, differs⟩)
      · cases same
      · cases same
      · exact differs rfl
  | arrives _ fd aside =>
    exact forgotten_aside aside.stays ((Notifier.forgotten_signals (apart fd)).trans
      (Notifier.forgotten_setReady (apart fd)))
  | signals fd =>
    have aside : (PollEvent.signals fd).Aside := trivial
    exact forgotten_aside aside.stays (Notifier.forgotten_signals (apart fd))
  | hands events empty idle nodup queued =>
    have aside : (PollEvent.wait events).Aside := trivial
    exact forgotten_aside aside.stays (Notifier.forgotten_handsOut empty fun source member =>
      (queued source member).2)
  | begins source rest isBatch idle below =>
    cases source with
    | listener =>
      refine Notified.attended_to (fun abandons => ?_) (Notifier.not_forgotten_of_mem ?_)
        (Notifier.not_forgotten_of_attended rfl)
      · rcases abandons.2.2 with ⟨-, -, full⟩ | ⟨_, _, same⟩
        · exact absurd (below rfl) (Nat.not_lt.mpr full)
        · cases same
      · change Source.listener ∈ p.batch
        rw [isBatch]
        exact List.mem_cons_self
    | conn fd =>
      exact forgotten_aside (not_abandons_conn isBatch) (Notifier.forgotten_attends (apart fd) isBatch idle)
  | passes rest isBatch idle full =>
    have turn : ¬ p.view.Forgotten .listener := Notifier.not_forgotten_of_mem (by
      change Source.listener ∈ p.batch
      rw [isBatch]
      exact List.mem_cons_self)
    rw [(awake.attends isBatch idle).forgotten_leaves rfl, or_iff_left fun lost => turn lost.1]
    constructor
    · rintro ⟨-, isReady, notQueued⟩
      refine ⟨of_decide_eq_true isReady, notQueued, Or.inl ⟨rfl, ?_, full⟩⟩
      rw [isBatch]
      rfl
    · exact fun abandons => ⟨rfl, decide_eq_true abandons.1, abandons.2.1⟩
  | flushes fd rest isBatch idle =>
    exact forgotten_aside (not_abandons_conn isBatch) ((Notifier.forgotten_leaves (other fd)).trans
      ((Notifier.forgotten_polls (apart fd)).trans (Notifier.forgotten_attends (apart fd) isBatch idle)))
  | breaks fd rest isBatch idle =>
    exact forgotten_aside (not_abandons_conn isBatch) ((Notifier.forgotten_leaves (other fd)).trans
      ((Notifier.forgotten_unwatches (apart fd)).trans
        (Notifier.forgotten_attends (apart fd) isBatch idle)))
  | returns unread hungUp attended =>
    rw [awake.forgotten_leaves attended,
      or_iff_left fun lost => Notifier.not_forgotten_of_attended attended lost.1]
    constructor
    · rintro ⟨-, isReady, notQueued⟩
      exact ⟨of_decide_eq_true isReady, notQueued, Or.inr ⟨unread, hungUp, rfl⟩⟩
    · exact fun abandons => ⟨rfl, decide_eq_true abandons.1, abandons.2.1⟩
  | accepts arrival unread hungUp more ready attended unwatched =>
    refine Notified.attended_to (fun abandons => ?_) (Notifier.not_forgotten_of_attended attended)
      (Notifier.not_forgotten_of_attended attended)
    rcases abandons.2.2 with ⟨same, -⟩ | ⟨_, _, same⟩
    · cases same
    · cases same
  | adds ok fd attended =>
    have aside : (PollEvent.added ok).Aside := trivial
    exact Notified.attended_to aside.stays.1 (Notifier.not_forgotten_of_attended attended)
      (Notifier.not_forgotten_of_attended attended)
  | goesOn event aside => exact forgotten_aside aside.stays Iff.rfl
  | reads bytes fd more attended =>
    have aside : (PollEvent.read (.data bytes)).Aside := trivial
    exact forgotten_aside aside.stays (Notifier.forgotten_setReady (apart fd))
  | finishes fd attended notReady =>
    have aside : (PollEvent.read .again).Aside := trivial
    exact forgotten_aside aside.stays (Notifier.forgotten_leaves (by rw [attended]; exact other fd))
  | closes event fd more aside attended =>
    exact forgotten_aside aside.stays ((Notifier.forgotten_leaves (by
      change p.view.attended ≠ _
      rw [attended]
      exact other fd)).trans ((Notifier.forgotten_unwatches (apart fd)).trans
        (Notifier.forgotten_setReady (apart fd))))

end Steps

/-! ### Whole runs -/

section Runs

variable {config : ZedisConfig} {mapped : Option (Nat → UInt8)} {stack : Nat → UInt8} {start : System}
  {backlog : Nat} {events : List PollEvent} {last : Polled}

/-- The invariant of the loop and its sockets. -/
structure PolledInv (p : Polled) : Prop where
  system : SystemInv p.system
  awake : p.view.Awake (· ≠ .listener)

theorem PolledInv.step {p next : Polled} {event : PollEvent} (inv : PolledInv p)
    (taken : pollStep p event = some next) : PolledInv next := by
  obtain ⟨notified, kept⟩ := pollStep_notified inv.system inv.awake.watched taken
  exact ⟨kept, notified.awake inv.awake fun isKept => absurd rfl isKept⟩

theorem polledInv_start (made : systemCreate config mapped stack = some start) (backlog : Nat) :
    PolledInv ⟨start, startSockets backlog, []⟩ ∧
      ¬ (Polled.view ⟨start, startSockets backlog, []⟩).Forgotten .listener := by
  have created := systemCreate_created made
  refine ⟨⟨created.inv, List.nodup_nil, fun _ member => absurd member List.not_mem_nil,
    fun _ _ => List.not_mem_nil, fun source isKept _ _ isReady => ?_⟩, fun lost => ?_⟩
  · cases source with
    | listener => exact absurd rfl isKept
    | conn fd => cases isReady
  · have ready : 0 < backlog := of_decide_eq_true lost.ready
    have queued := lost.queued
    simp [Polled.view, startSockets, ready] at queued

/-- **No lost wake-up.** In every run, a connection with unread bytes, or whose peer is gone, is queued,
handed out and waiting for its turn, or being read; and the handler of every event that was handed out is
there when its turn comes. -/
theorem no_lost_wakeups (made : systemCreate config mapped stack = some start)
    (run : Run pollStep Always ⟨start, startSockets backlog, []⟩ events last) :
    (∀ fd, last.system.registered fd = true → last.sockets.ready (.conn fd) = true →
      last.sockets.queued (.conn fd) = true ∨ .conn fd ∈ last.batch ∨
        last.system.phase.attends = some (.conn fd)) ∧
    ∀ fd, .conn fd ∈ last.batch → ∃ handler, last.system.handlerOf fd = some handler := by
  have inv : PolledInv last := run.invariant PolledInv
    (fun _ _ _ inv _ taken => inv.step taken) (polledInv_start made backlog).1
  refine ⟨fun fd registered isReady => ?_, fun fd member => ?_⟩
  · by_cases attended : last.system.phase.attends = some (.conn fd)
    · exact Or.inr (Or.inr attended)
    · rcases inv.awake.told (.conn fd) (fun same => by cases same) registered attended isReady with
        isQueued | member
      · exact Or.inl isQueued
      · exact Or.inr (Or.inl member)
  · obtain ⟨conn, -, isHandler⟩ := connected_of_registered inv.system (inv.awake.watched _ member)
    exact ⟨_, isHandler⟩

/-- **Stranded clients.** Clients wait in the backlog while the listening socket is neither queued nor
handed out nor attended to, exactly if `server_on_accept` has returned before the backlog was empty, at
the limit or because `accept` failed, while the listening socket was not queued again, and no client has
connected since. -/
theorem clients_stranded_iff (made : systemCreate config mapped stack = some start)
    (run : Run pollStep Always ⟨start, startSockets backlog, []⟩ events last) :
    (0 < last.sockets.backlog ∧ last.sockets.queued .listener = false ∧ .listener ∉ last.batch ∧
        last.system.phase.attends ≠ some .listener) ↔
      ∃ past event later middle next, events = past ++ event :: later ∧
        Run pollStep Always ⟨start, startSockets backlog, []⟩ past middle ∧ Abandons middle event ∧
        pollStep middle event = some next ∧ Run pollStep Always next later last ∧
        ∀ event ∈ later, event ≠ .connects := by
  obtain ⟨inv, aware⟩ := polledInv_start made backlog
  have latched := run.latched_iff PolledInv (fun p => p.view.Forgotten .listener) Abandons
    (· = .connects) (fun _ _ _ inv taken => inv.step taken)
    (fun p event next inv taken =>
      (pollStep_notified inv.system inv.awake.watched taken).1.forgotten_iff inv.awake) inv aware
  rw [← latched]
  constructor
  · rintro ⟨waiting, notQueued, outside, elsewhere⟩
    exact ⟨rfl, decide_eq_true waiting, notQueued, outside, elsewhere⟩
  · exact fun lost => ⟨of_decide_eq_true lost.ready, lost.queued, lost.batch, lost.attended⟩

/-- A connection whose first bytes arrive before it is registered, for a limit of one. -/
def sampleEarly : List PollEvent :=
  [.connects, .wait [.listener], .dispatch,
    .accept (some ⟨5, true, some fun _ => 0, fun _ => 0, [.takes 99]⟩) 6 false, .added true,
    .accept none 0 false]

/-- The bytes that were there when the connection was registered are not lost. -/
theorem no_lost_wakeups_early : ∃ start last,
    systemCreate sampleConfig (some fun _ => 0) (fun _ => 0) = some start ∧
      Run pollStep Always ⟨start, startSockets 0, []⟩ sampleEarly last ∧
      last.system.phase = .waiting ∧ last.sockets.unread 5 = 6 ∧
      (last.sockets.queued (.conn 5) = true ∨ .conn 5 ∈ last.batch ∨
        last.system.phase.attends = some (.conn 5)) := by
  have played : ((systemCreate sampleConfig (some fun _ => 0) fun _ => 0).bind fun start =>
      (replay pollStep ⟨start, startSockets 0, []⟩ sampleEarly).map fun last =>
        (last.system.phase, last.sockets.unread 5, last.system.registered 5,
          last.sockets.ready (.conn 5))) = some (.waiting, 6, true, true) := by decide +kernel
  obtain ⟨start, made, played⟩ := Option.bind_eq_some_iff.mp played
  obtain ⟨last, returned, same⟩ := Option.map_eq_some_iff.mp played
  simp only [Prod.mk.injEq] at same
  obtain ⟨waits, unread, registered, isReady⟩ := same
  have run : Run pollStep Always ⟨start, startSockets 0, []⟩ sampleEarly last :=
    Run.of_replay (fun _ _ _ => trivial) returned
  exact ⟨start, last, made, run, waits, unread, (no_lost_wakeups made run).1 5 registered isReady⟩

/-- A second client connects at a limit of one; then the first one closes its connection. -/
def sampleStranded : List PollEvent :=
  sampleEarly ++ [.wait [.conn 5], .dispatch, .read (.data (ascii "PING\r\n")), .parse fun _ => true,
    .parse fun _ => true, .read .again, .connects, .wait [.listener], .dispatch, .hangsUp 5,
    .wait [.conn 5], .dispatch, .read .closes]

/-- The second client is not accepted, although no connection is left. -/
theorem clients_stranded_iff_closed : ∃ start last,
    systemCreate sampleConfig (some fun _ => 0) (fun _ => 0) = some start ∧
      Run pollStep Always ⟨start, startSockets 0, []⟩ sampleStranded last ∧
      last.system.connCount = 0 ∧ last.sockets.backlog = 1 ∧
      ∃ past event later middle next, sampleStranded = past ++ event :: later ∧
        Run pollStep Always ⟨start, startSockets 0, []⟩ past middle ∧ Abandons middle event ∧
        pollStep middle event = some next ∧ Run pollStep Always next later last ∧
        ∀ event ∈ later, event ≠ .connects := by
  have played : ((systemCreate sampleConfig (some fun _ => 0) fun _ => 0).bind fun start =>
      (replay pollStep ⟨start, startSockets 0, []⟩ sampleStranded).map fun last =>
        (last.system.connCount, last.sockets.backlog, last.sockets.queued .listener, last.batch,
          last.system.phase)) = some (0, 1, false, [], .waiting) := by decide +kernel
  obtain ⟨start, made, played⟩ := Option.bind_eq_some_iff.mp played
  obtain ⟨last, returned, same⟩ := Option.map_eq_some_iff.mp played
  simp only [Prod.mk.injEq] at same
  obtain ⟨count, waiting, notQueued, batch, phase⟩ := same
  have run : Run pollStep Always ⟨start, startSockets 0, []⟩ sampleStranded last :=
    Run.of_replay (fun _ _ _ => trivial) returned
  refine ⟨start, last, made, run, count, waiting, (clients_stranded_iff made run).mp ⟨?_, notQueued, ?_, ?_⟩⟩
  · rw [waiting]
    exact Nat.one_pos
  · rw [batch]
    exact List.not_mem_nil
  · rw [phase]
    simp [Phase.attends]

end Runs

end Zedis.EventLoop

/-
**The output of a connection is a stream.**

What the socket has taken, followed by what is pending, is the text of the appended messages, and
every call keeps it so (`Outlet.Sound.step`): a write moves bytes from the pending ones to the taken
ones, the shift at `EAGAIN` moves them in the buffer only, and the reset after the last write happens
where nothing is pending. A refused message marks the connection as closed, and a closed connection
appends nothing.
-/

import Zedis.Connection.Model
import Zedis.Lib.Run

namespace Zedis.Connection

open Zedis.Lib

/-- The bytes that have left or will leave the connection. -/
def sentText (conn : Conn) : Bytes := conn.socket.accepted ++ pending conn

/-- What no call on the write side touches. -/
structure SameReader (conn after : Conn) : Prop where
  fd : after.fd = conn.fd
  parser : after.parser = conn.parser
  channel : after.subscribeChannel = conn.subscribeChannel
  subscribed : after.subscribed = conn.subscribed

theorem SameReader.refl (conn : Conn) : SameReader conn conn := ⟨rfl, rfl, rfl, rfl⟩

theorem SameReader.trans {conn middle after : Conn} (one : SameReader conn middle)
    (two : SameReader middle after) : SameReader conn after :=
  ⟨two.fd.trans one.fd, two.parser.trans one.parser, two.channel.trans one.channel,
    two.subscribed.trans one.subscribed⟩

/-- The counters of the write buffer. -/
structure Counted (conn : Conn) : Prop where
  sent : conn.writeSent ≤ conn.writeLen
  room : conn.writeLen ≤ zedisConnWriteSize

/-! ### A flush -/

section Flush

variable {conn : Conn}

theorem length_pending (conn : Conn) : (pending conn).length = conn.writeLen - conn.writeSent :=
  length_segment _ _ _

theorem takeBytes_sentText (conn : Conn) (n : Nat) :
    sentText (takeBytes conn n) = sentText conn := by
  have rest : pending (takeBytes conn n) = (pending conn).drop n := by
    rw [pending, pending, drop_segment]
    simp only [takeBytes, Nat.sub_add_eq]
  rw [sentText, rest]
  simp only [takeBytes, sentText, List.append_assoc, List.take_append_drop]

theorem shiftUnsent_sentText (conn : Conn) : sentText (shiftUnsent conn) = sentText conn := by
  unfold shiftUnsent
  by_cases moved : conn.writeSent > 0
  · rw [if_pos moved]
    have back := segment_store_self conn.writeBuf 0 (pending conn)
    rw [length_pending] at back
    exact congrArg (conn.socket.accepted ++ ·) back
  · rw [if_neg moved]
    rfl

theorem shiftUnsent_counted (counted : Counted conn) : Counted (shiftUnsent conn) := by
  have sent := counted.sent
  have room := counted.room
  unfold shiftUnsent
  split
  · exact ⟨Nat.zero_le _, (Nat.sub_le _ _).trans room⟩
  · exact ⟨sent, room⟩

theorem shiftUnsent_same (conn : Conn) : SameReader conn (shiftUnsent conn) ∧
    (shiftUnsent conn).closed = conn.closed := by
  unfold shiftUnsent
  split
  · exact ⟨⟨rfl, rfl, rfl, rfl⟩, rfl⟩
  · exact ⟨⟨rfl, rfl, rfl, rfl⟩, rfl⟩

theorem allSent_sentText (drained : ¬ conn.writeSent < conn.writeLen) :
    sentText (allSent conn) = sentText conn := by
  have nothing : pending conn = [] := by
    rw [pending, Nat.sub_eq_zero_of_le (Nat.not_lt.mp drained), segment_zero]
  rw [sentText, sentText, nothing]
  rfl

/-- What a flush leaves, `rc` being its return value. -/
structure Flushed (conn : Conn) (rc : Int) (after : Conn) : Prop where
  text : sentText after = sentText conn
  counted : Counted after
  same : SameReader conn after
  closed : rc = 0 ∧ after.closed = conn.closed ∨ rc = -1 ∧ after.closed = true

theorem flushLoop_flushed : ∀ (answers : List WriteAnswer) (conn : Conn), Counted conn →
    Flushed conn (flushLoop answers conn).1 (flushLoop answers conn).2 := by
  have blocked : ∀ conn : Conn, Counted conn → Flushed conn 0 (shiftUnsent conn) :=
    fun conn counted => ⟨shiftUnsent_sentText conn, shiftUnsent_counted counted,
      (shiftUnsent_same conn).1, Or.inl ⟨rfl, (shiftUnsent_same conn).2⟩⟩
  have finished : ∀ conn : Conn, ¬ conn.writeSent < conn.writeLen → Flushed conn 0 (allSent conn) :=
    fun conn drained => ⟨allSent_sentText drained, ⟨le_rfl, Nat.zero_le _⟩, ⟨rfl, rfl, rfl, rfl⟩,
      Or.inl ⟨rfl, rfl⟩⟩
  intro answers
  induction answers with
  | nil =>
    intro conn counted
    rw [flushLoop]
    by_cases more : conn.writeSent < conn.writeLen
    · rw [if_pos more]
      exact blocked conn counted
    · rw [if_neg more]
      exact finished conn more
  | cons answer answers ih =>
    intro conn counted
    rw [flushLoop]
    by_cases more : conn.writeSent < conn.writeLen
    · rw [if_pos more]
      have sent := counted.sent
      have room := counted.room
      -- the answer is used up; nothing else of the connection has changed
      let asked : Conn := { conn with socket := { conn.socket with answers := answers } }
      cases answer with
      | takes n =>
        have later : Counted (takeBytes asked (min (n + 1) (conn.writeLen - conn.writeSent))) := by
          refine ⟨?_, room⟩
          change conn.writeSent + min (n + 1) (conn.writeLen - conn.writeSent) ≤ conn.writeLen
          omega
        obtain ⟨text, kept, same, closed⟩ := ih _ later
        refine ⟨text.trans (takeBytes_sentText asked _), kept, ?_, closed⟩
        exact ⟨same.fd, same.parser, same.channel, same.subscribed⟩
      | again =>
        obtain ⟨text, kept, same, closed⟩ := blocked asked ⟨sent, room⟩
        exact ⟨text, kept, ⟨same.fd, same.parser, same.channel, same.subscribed⟩, closed⟩
      | fails => exact ⟨rfl, ⟨sent, room⟩, ⟨rfl, rfl, rfl, rfl⟩, Or.inr ⟨rfl, rfl⟩⟩
    · rw [if_neg more]
      exact finished conn more

/-- Whether a socket fails before it has taken `left` bytes or says `EAGAIN`. -/
def flushFails : List WriteAnswer → Nat → Bool
  | [], _ => false
  | .takes n :: answers, left => 0 < left && flushFails answers (left - min (n + 1) left)
  | .again :: _, _ => false
  | .fails :: _, left => 0 < left

/-- A flush returns `0`, and leaves an open connection open, exactly if the socket does not fail. -/
theorem flushLoop_fails : ∀ (answers : List WriteAnswer) (conn : Conn),
    ((flushLoop answers conn).1 = 0 ↔ flushFails answers (conn.writeLen - conn.writeSent) = false) ∧
      (flushFails answers (conn.writeLen - conn.writeSent) = false →
        (flushLoop answers conn).2.closed = conn.closed) := by
  intro answers
  induction answers with
  | nil =>
    intro conn
    rw [flushLoop]
    split
    · exact ⟨iff_of_true rfl rfl, fun _ => (shiftUnsent_same conn).2⟩
    · exact ⟨iff_of_true rfl rfl, fun _ => rfl⟩
  | cons answer answers ih =>
    intro conn
    rw [flushLoop]
    split
    · rename_i more
      have positive : decide (0 < conn.writeLen - conn.writeSent) = true :=
        decide_eq_true (Nat.sub_pos_of_lt more)
      cases answer with
      | takes n =>
        have later := ih (takeBytes { conn with socket := { conn.socket with answers := answers } }
          (min (n + 1) (conn.writeLen - conn.writeSent)))
        rw [flushFails, positive, Bool.true_and, Nat.sub_sub]
        exact later
      | again => exact ⟨iff_of_true rfl rfl, fun _ => (shiftUnsent_same _).2⟩
      | fails =>
        rw [flushFails, positive]
        exact ⟨iff_of_false (show (-1 : Int) ≠ 0 by decide) nofun, nofun⟩
    · rename_i drained
      have none : flushFails (answer :: answers) (conn.writeLen - conn.writeSent) = false := by
        rw [Nat.sub_eq_zero_of_le (Nat.not_lt.mp drained)]
        cases answer with
        | takes n => rfl
        | again => rfl
        | fails => rfl
      exact ⟨iff_of_true rfl none, fun _ => rfl⟩

theorem flushFails_of_sound : ∀ (answers : List WriteAnswer) (left : Nat), .fails ∉ answers →
    flushFails answers left = false := by
  intro answers
  induction answers with
  | nil => exact fun _ _ => rfl
  | cons answer answers ih =>
    intro left sound
    cases answer with
    | takes n =>
      rw [flushFails, ih _ fun member => sound (List.mem_cons_of_mem _ member), Bool.and_false]
    | again => rfl
    | fails => exact absurd List.mem_cons_self sound

/-- **A flush keeps the stream.** -/
theorem connFlush_flushed (counted : Counted conn) :
    Flushed conn (connFlush conn).1 (connFlush conn).2 :=
  flushLoop_flushed conn.socket.answers conn counted

end Flush

/-! ### A message -/

section Queue

variable {conn after : Conn} {data : Bytes}

theorem writeBufAppend_eq_some (appended : writeBufAppend conn data = some after) :
    conn.closed = false ∧ conn.writeLen + data.length ≤ zedisConnWriteSize ∧
      after = { conn with
        writeBuf := store conn.writeBuf conn.writeLen data
        writeLen := conn.writeLen + data.length } := by
  unfold writeBufAppend at appended
  split at appended
  · cases appended
  · rename_i isOpen
    split at appended
    · cases appended
    · rename_i room
      exact ⟨Bool.eq_false_iff.mpr isOpen, Nat.not_lt.mp room, (Option.some.inj appended).symm⟩

theorem writeBufAppend_sentText (counted : Counted conn)
    (appended : writeBufAppend conn data = some after) :
    sentText after = sentText conn ++ data ∧ Counted after := by
  obtain ⟨-, room, rfl⟩ := writeBufAppend_eq_some appended
  have sent := counted.sent
  refine ⟨?_, sent.trans (Nat.le_add_right _ _), room⟩
  have length : conn.writeLen + data.length - conn.writeSent =
      conn.writeLen - conn.writeSent + data.length := by omega
  have boundary : conn.writeSent + (conn.writeLen - conn.writeSent) = conn.writeLen := by omega
  simp only [sentText, pending]
  rw [length, segment_add, boundary, segment_store_self, segment_store_disjoint _ _ _ (Or.inl boundary.le),
    List.append_assoc]

theorem writeBufAppend_of_fits (isOpen : conn.closed = false)
    (fits : conn.writeLen + data.length ≤ zedisConnWriteSize) :
    (writeBufAppend conn data).isSome = true := by
  rw [writeBufAppend, if_neg (by rw [isOpen]; exact Bool.false_ne_true), if_neg (Nat.not_lt.mpr fits)]
  rfl

/-- What a message leaves; `appended` says whether its append succeeded. -/
structure Queued (conn : Conn) (data : Bytes) (appended : Bool) (after : Conn) : Prop where
  text : sentText after = sentText conn ++ if appended then data else []
  counted : Counted after
  same : SameReader conn after
  refused : appended = false → after.closed = true
  accepted : appended = true → conn.closed = false

/-- **A message is appended to the stream, or the connection is closed.** -/
theorem connQueueWrite_queued (counted : Counted conn) (data : Bytes) :
    Queued conn data (writeBufAppend conn data).isSome (connQueueWrite conn data).2 := by
  unfold connQueueWrite
  by_cases closed : conn.closed = true
  · have refused : writeBufAppend conn data = none := if_pos closed
    rw [if_pos closed, refused]
    exact ⟨(List.append_nil _).symm, counted, .refl conn, fun _ => closed, nofun⟩
  · rw [if_neg closed]
    cases appended : writeBufAppend conn data with
    | none =>
      exact ⟨(List.append_nil _).symm, ⟨counted.sent, counted.room⟩, ⟨rfl, rfl, rfl, rfl⟩,
        fun _ => rfl, nofun⟩
    | some longer =>
      obtain ⟨isOpen, room, made⟩ := writeBufAppend_eq_some appended
      obtain ⟨text, countedLonger⟩ := writeBufAppend_sentText counted appended
      have reader : SameReader conn longer := by
        rw [made]
        exact ⟨rfl, rfl, rfl, rfl⟩
      obtain ⟨kept, countedAfter, same, -⟩ := connFlush_flushed countedLonger
      refine ⟨?_, ?_, ?_, nofun, fun _ => isOpen⟩
      · rw [Option.isSome_some, if_pos rfl, ← text, ← kept]
        dsimp only
        split
        · rfl
        · rfl
      · dsimp only
        split
        · exact ⟨countedAfter.sent, countedAfter.room⟩
        · exact countedAfter
      · have both := reader.trans same
        dsimp only
        split
        · exact ⟨both.fd, both.parser, both.channel, both.subscribed⟩
        · exact both

/-- **A message leaves an open connection open exactly if it fits and the socket does not fail.** -/
theorem connQueueWrite_open_exactly (isOpen : conn.closed = false) (data : Bytes) :
    (connQueueWrite conn data).2.closed = false ↔
      conn.writeLen + data.length ≤ zedisConnWriteSize ∧
        flushFails conn.socket.answers (conn.writeLen + data.length - conn.writeSent) = false := by
  rw [connQueueWrite, if_neg (by rw [isOpen]; exact Bool.false_ne_true)]
  cases appended : writeBufAppend conn data with
  | none =>
    refine ⟨nofun, fun ⟨fits, _⟩ => ?_⟩
    have accepted := writeBufAppend_of_fits isOpen fits
    rw [appended] at accepted
    cases accepted
  | some longer =>
    obtain ⟨-, room, rfl⟩ := writeBufAppend_eq_some appended
    obtain ⟨returns, kept⟩ := flushLoop_fails conn.socket.answers { conn with
      writeBuf := store conn.writeBuf conn.writeLen data
      writeLen := conn.writeLen + data.length }
    dsimp only [connFlush]
    split
    · rename_i failed
      exact ⟨nofun, fun ⟨_, sound⟩ => absurd (returns.mpr sound) failed⟩
    · rename_i zero
      have sound := returns.mp (not_not.mp zero)
      exact iff_of_true ((kept sound).trans isOpen) ⟨room, sound⟩

/-- **`conn_queue_write` returns `0` exactly if the connection is open, the message fits and the socket
does not fail.** -/
theorem connQueueWrite_zero_iff (conn : Conn) (data : Bytes) :
    (connQueueWrite conn data).1 = 0 ↔ conn.closed = false ∧
      conn.writeLen + data.length ≤ zedisConnWriteSize ∧
        flushFails conn.socket.answers (conn.writeLen + data.length - conn.writeSent) = false := by
  unfold connQueueWrite
  by_cases closed : conn.closed = true
  · rw [if_pos closed]
    refine iff_of_false (show (-1 : Int) ≠ 0 by decide) fun said => ?_
    rw [closed] at said
    cases said.1
  · have isOpen : conn.closed = false := Bool.eq_false_iff.mpr closed
    rw [if_neg closed]
    cases appended : writeBufAppend conn data with
    | none =>
      refine iff_of_false (show (-1 : Int) ≠ 0 by decide) fun said => ?_
      have accepted := writeBufAppend_of_fits isOpen said.2.1
      rw [appended] at accepted
      cases accepted
    | some longer =>
      obtain ⟨-, room, rfl⟩ := writeBufAppend_eq_some appended
      obtain ⟨returns, -⟩ := flushLoop_fails conn.socket.answers { conn with
        writeBuf := store conn.writeBuf conn.writeLen data
        writeLen := conn.writeLen + data.length }
      dsimp only [connFlush]
      split
      · rename_i failed
        exact iff_of_false (show (-1 : Int) ≠ 0 by decide) fun said => failed (returns.mpr said.2.2)
      · rename_i zero
        exact iff_of_true rfl ⟨isOpen, room, returns.mp (not_not.mp zero)⟩

/-- **With a socket that does not fail, a message closes an open connection exactly if it does not
fit.** -/
theorem connQueueWrite_open_iff (isOpen : conn.closed = false)
    (sound : WriteAnswer.fails ∉ conn.socket.answers) :
    (connQueueWrite conn data).2.closed = false ↔ conn.writeLen + data.length ≤ zedisConnWriteSize := by
  rw [connQueueWrite_open_exactly isOpen, flushFails_of_sound _ _ sound]
  exact and_iff_left rfl

end Queue

/-! ### Whole runs -/

section Runs

/-- The messages whose append succeeded. -/
def appendedMessages (messages : List (Bytes × Bool)) : List Bytes :=
  (messages.filter Prod.snd).map Prod.fst

/-- No message is appended after a refused one. -/
def NoneAfterRefusal (messages : List (Bytes × Bool)) : Prop :=
  messages.Pairwise fun earlier later => later.2 = true → earlier.2 = true

/-- The invariant of a connection and its history. -/
structure Outlet.Sound (s : Outlet) : Prop where
  text : sentText s.conn = (appendedMessages s.messages).flatten
  counted : Counted s.conn
  ordered : NoneAfterRefusal s.messages
  closed : ∀ message ∈ s.messages, message.2 = false → s.conn.closed = true

theorem Outlet.Sound.start {conn : Conn} (empty : sentText conn = []) (counted : Counted conn) :
    Outlet.Sound ⟨conn, [], false⟩ :=
  ⟨empty, counted, List.Pairwise.nil, nofun⟩

theorem Outlet.Sound.step {s next : Outlet} {event : ConnEvent} (sound : s.Sound)
    (taken : connStep s event = some next) : next.Sound := by
  cases event with
  | queue data =>
    obtain ⟨-, same⟩ := Option.ite_none_left_eq_some.mp taken
    obtain rfl := Option.some.inj same
    obtain ⟨text, counted, -, refused, accepted⟩ := connQueueWrite_queued sound.counted data
    refine ⟨?_, counted, ?_, ?_⟩
    · simp only [appendedMessages, List.filter_append, List.map_append, List.flatten_append]
      rw [text, sound.text]
      cases (writeBufAppend s.conn data).isSome with
      | true => simp [appendedMessages]
      | false => simp [appendedMessages]
    · refine List.pairwise_append.mpr ⟨sound.ordered, List.pairwise_singleton _ _, ?_⟩
      intro earlier old later new appended
      rw [List.mem_singleton.mp new] at appended
      by_contra dropped
      have closed := sound.closed earlier old (Bool.eq_false_iff.mpr dropped)
      rw [accepted appended] at closed
      cases closed
    · intro message member dropped
      rcases List.mem_append.mp member with old | new
      · -- a closed connection stays closed
        have closed := sound.closed message old dropped
        simp only [connQueueWrite, if_pos closed]
        exact closed
      · rw [List.mem_singleton.mp new] at dropped
        exact refused dropped
  | writable =>
    obtain ⟨-, same⟩ := Option.ite_none_left_eq_some.mp taken
    obtain rfl := Option.some.inj same
    obtain ⟨text, counted, -, closed⟩ := connFlush_flushed sound.counted
    refine ⟨text.trans sound.text, counted, sound.ordered, fun message member dropped => ?_⟩
    rcases closed with ⟨-, kept⟩ | ⟨-, closed⟩
    · exact kept.trans (sound.closed message member dropped)
    · exact closed

theorem NoneAfterRefusal.appended {messages : List (Bytes × Bool)} (ordered : NoneAfterRefusal messages) :
    appendedMessages messages <+: messages.map Prod.fst := by
  induction messages with
  | nil => exact List.nil_prefix
  | cons message messages ih =>
    obtain ⟨after, ordered⟩ := List.pairwise_cons.mp ordered
    by_cases appended : message.2 = true
    · simp only [appendedMessages, List.filter_cons, if_pos appended, List.map_cons]
      exact List.cons_prefix_cons.mpr ⟨rfl, ih ordered⟩
    · have none : (message :: messages).filter Prod.snd = [] := by
        refine List.filter_eq_nil_iff.mpr fun later member => ?_
        rcases List.mem_cons.mp member with rfl | member
        · exact appended
        · exact fun accepted => appended (after later member accepted)
      rw [appendedMessages, none]
      exact List.nil_prefix

/-- **The peer sees a prefix of the replies.** In every state that calls and socket answers reach from
a new connection, what the socket has taken and what is pending make up the appended messages, in
order; none is appended after a refused one. -/
theorem output_stream (fd : Nat) (parser : Resp.RespParser) (writeBuf : Nat → UInt8)
    (answers : List WriteAnswer) {events : List ConnEvent} {s : Outlet}
    (run : Run connStep Always ⟨connCreate fd parser writeBuf answers, [], false⟩ events s) :
    s.conn.socket.accepted ++ pending s.conn = (appendedMessages s.messages).flatten ∧
      NoneAfterRefusal s.messages ∧
      s.conn.socket.accepted <+: (s.messages.map Prod.fst).flatten := by
  have start : Outlet.Sound ⟨connCreate fd parser writeBuf answers, [], false⟩ :=
    .start rfl ⟨le_rfl, Nat.zero_le _⟩
  have sound := run.invariant Outlet.Sound (fun _ _ _ sound _ taken => sound.step taken) start
  refine ⟨sound.text, sound.ordered, ?_⟩
  have taken : s.conn.socket.accepted <+: (appendedMessages s.messages).flatten :=
    sound.text ▸ List.prefix_append _ _
  obtain ⟨later, all⟩ := sound.ordered.appended
  refine taken.trans ?_
  rw [← all, List.flatten_append]
  exact List.prefix_append _ _

/-- A message taken byte by byte, one that overflows the buffer, and one after it. -/
theorem output_stream_sample : ∃ s : Outlet,
    Run connStep Always ⟨connCreate 0 ⟨fun _ => 0, 16, 0, 0⟩ (fun _ => 0) [.takes 0, .again], [], false⟩
      [.queue [1, 2, 3], .queue (List.replicate 4096 0), .queue [4], .writable] s ∧
      s.messages.map Prod.snd = [true, false, false] ∧
      s.conn.socket.accepted ++ pending s.conn = [1, 2, 3] := by
  obtain ⟨s, played⟩ := Option.isSome_iff_exists.mp
    (show (replay connStep ⟨connCreate 0 ⟨fun _ => 0, 16, 0, 0⟩ (fun _ => 0) [.takes 0, .again], [], false⟩
      [.queue [1, 2, 3], .queue (List.replicate 4096 0), .queue [4], .writable]).isSome by
        decide +kernel)
  have outcomes : (replay connStep
      ⟨connCreate 0 ⟨fun _ => 0, 16, 0, 0⟩ (fun _ => 0) [.takes 0, .again], [], false⟩
      [.queue [1, 2, 3], .queue (List.replicate 4096 0), .queue [4], .writable]).map
        (fun s => (s.messages.map Prod.snd, appendedMessages s.messages)) =
      some ([true, false, false], [[1, 2, 3]]) := by decide +kernel
  rw [played, Option.map_some, Option.some.injEq, Prod.mk.injEq] at outcomes
  have run : Run connStep Always _ _ s := Run.of_replay (fun _ _ _ => trivial) played
  refine ⟨s, run, outcomes.1, ?_⟩
  rw [(output_stream 0 _ _ _ run).1, outcomes.2]
  rfl

end Runs

end Zedis.Connection

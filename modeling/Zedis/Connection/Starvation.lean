/-
**When the read path runs out of space.**

Between two reads the unread bytes are the front of one command, which starts at an offset `c` of the
buffer. A command of `n` bytes moves the start to `c + n`, and to `0` where that is in the second half
of the buffer (`startOf`), so the offsets do not depend on how the stream was cut. A command can be read
in every way exactly if it ends within the buffer: if it does not, the reads that fill the buffer leave
no space and an incomplete command (`starves`); if all do, there always is space, and every command is
dispatched as through `resp_parser_feed` (`readsAll_iff`).
-/

import Zedis.Connection.Reader

namespace Zedis.Connection

open Zedis.Lib Zedis.Resp

/-- **A complete command**: bytes that are one value. -/
structure Command where
  text : Bytes
  value : RespValue Bytes
  complete : decode text = some (.ok (value, []))

/-- The bytes of some commands. -/
def streamOf (commands : List Command) : Bytes := (commands.map Command.text).flatten

/-- The offset where `resp_parser_next` looks for a value. -/
def startOf (bufCap rPos : Nat) : Nat := if rPos > bufCap / 2 then 0 else rPos

/-! ### One value -/

section Values

variable {p : RespParser} {command : Command}

theorem Command.length_pos (command : Command) : 0 < command.text.length :=
  Nat.zero_lt_of_lt (decode_shrinks _ _ _ command.complete)

theorem startOf_le (bufCap rPos : Nat) : startOf bufCap rPos ≤ bufCap / 2 := by
  unfold startOf
  split
  · exact Nat.zero_le _
  · omega

theorem startOf_of_le {bufCap rPos : Nat} (first : rPos ≤ bufCap / 2) : startOf bufCap rPos = rPos :=
  if_neg (Nat.not_lt.mpr first)

/-- Where `resp_parser_next` leaves the bytes. -/
theorem respParserNext_moves (valid : p.Valid) {verdict : Verdict (RespValue Slice)} {after : RespParser}
    (next : respParserNext p = some (verdict, after)) :
    after.bufCap = p.bufCap ∧ after.wPos = startOf p.bufCap p.rPos + (unread p).length ∧
      (verdict = .needMore → after.rPos = startOf p.bufCap p.rPos) := by
  obtain ⟨q, compacted, cap, start, written⟩ : ∃ q,
      (if p.rPos > p.bufCap / 2 then respCompact p else p) = q ∧ q.bufCap = p.bufCap ∧
        q.rPos = startOf p.bufCap p.rPos ∧ q.wPos = startOf p.bufCap p.rPos + (unread p).length := by
    have ordered := valid.read
    rw [length_unread]
    by_cases late : p.rPos > p.bufCap / 2
    · obtain ⟨-, -, cap, start, written⟩ := respCompact_spec valid
      rw [if_pos late, startOf, if_pos late, Nat.zero_add]
      exact ⟨_, rfl, cap, start, written⟩
    · rw [if_neg late, startOf, if_neg late]
      exact ⟨p, rfl, rfl, rfl, by omega⟩
  unfold respParserNext at next
  simp only [compacted] at next
  obtain ⟨said, -, same⟩ := Option.map_eq_some_iff.mp next
  cases said with
  | needMore =>
    cases same
    exact ⟨cap, written, fun _ => start⟩
  | error =>
    cases same
    exact ⟨cap, written, nofun⟩
  | ok result =>
    cases same
    exact ⟨cap, written, nofun⟩

/-- What a step of the parser leaves. -/
structure Stepped (p after : RespParser) (rPos : Nat) (left : Bytes) : Prop where
  valid : after.Valid
  bufCap_eq : after.bufCap = p.bufCap
  rPos_eq : after.rPos = rPos
  unread_eq : unread after = left

/-- **A command that is there is taken off**, and the next one starts after it. -/
theorem respParserNext_command (valid : p.Valid) {more : Bytes} (here : unread p = command.text ++ more) :
    ∃ parsed after, respParserNext p = some (.ok parsed, after) ∧
      parsed.contents after.buf = command.value ∧
      Stepped p after (startOf p.bufCap p.rPos + command.text.length) more := by
  obtain ⟨verdict, after, next, validAfter, decoded, -⟩ := respParserNext_spec valid
  obtain ⟨cap, written, -⟩ := respParserNext_moves valid next
  have whole := decode_settled command.text more _ command.complete nofun
  rw [here, whole] at decoded
  cases verdict with
  | needMore => cases decoded
  | error => cases decoded
  | ok parsed =>
    obtain ⟨same, left⟩ := Prod.mk.inj (Verdict.ok.inj (Option.some.inj decoded))
    refine ⟨parsed, after, next, same.symm, validAfter, cap, ?_, left.symm⟩
    have length := length_unread after
    have ordered := validAfter.read
    rw [← left, List.nil_append] at length
    rw [here, List.length_append] at written
    omega

/-- **What is incomplete waits for the rest.** -/
theorem respParserNext_waits (valid : p.Valid) (waits : decode (unread p) = some .needMore) :
    ∃ after, respParserNext p = some (.needMore, after) ∧
      Stepped p after (startOf p.bufCap p.rPos) (unread p) := by
  obtain ⟨verdict, after, next, validAfter, decoded, same⟩ := respParserNext_spec valid
  obtain ⟨cap, -, start⟩ := respParserNext_moves valid next
  rw [waits] at decoded
  cases verdict with
  | needMore => exact ⟨after, next, validAfter, cap, start rfl, same rfl⟩
  | error => cases decoded
  | ok parsed => cases decoded

/-- The front of a command is incomplete. -/
theorem Command.front_waits {front rest : Bytes} (more : rest ≠ []) (whole : front ++ rest = command.text) :
    decode front = some .needMore := by
  obtain ⟨verdict, said⟩ := Option.isSome_iff_exists.mp (decode_isSome front)
  have complete := command.complete
  rw [← whole] at complete
  rw [said, decode_settled.strict_front complete more said]

/-- The first command of a stream that is read in part is there, or is not. -/
theorem streamOf_cases {later : List Command} {front rest : Bytes}
    (same : front ++ rest = streamOf (command :: later)) :
    (∃ more, front = command.text ++ more ∧ more ++ rest = streamOf later) ∨
      ∃ left, left ≠ [] ∧ front ++ left = command.text ∧ rest = left ++ streamOf later := by
  rcases List.append_eq_append_iff.mp (same.trans List.flatten_cons) with
    ⟨left, whole, isRest⟩ | ⟨more, isFront, isLater⟩
  · cases left with
    | nil =>
      rw [List.append_nil] at whole
      exact Or.inl ⟨[], by rw [whole, List.append_nil], isRest⟩
    | cons b left => exact Or.inr ⟨b :: left, List.cons_ne_nil _ _, whole.symm, isRest⟩
  · exact Or.inl ⟨more, isFront, isLater.symm⟩

end Values

/-! ### Dispatching -/

section Dispatch

variable {σ : Type} (handle : σ → RespValue Bytes → Option (σ × Bool)) (protest : σ → σ)

/-- The commands handled one after the other, up to one that closes the connection. -/
def handleAll : σ → List Command → Option (Fate × σ)
  | s, [] => some (.live, s)
  | s, command :: later => (handle s command.value).bind fun (s, closed) =>
      if closed then some (.closedByCommand, s) else handleAll s later

/-- **Each command ends within the buffer**, the first one starting at `start`, as long as none closes
the connection. -/
def Fits (bufCap : Nat) : Nat → σ → List Command → Prop
  | _, _, [] => True
  | start, s, command :: later => start + command.text.length ≤ bufCap ∧
      ∀ next, handle s command.value = some (next, false) →
        Fits bufCap (startOf bufCap (start + command.text.length)) next later

/-- **Between two reads**: the unread bytes are the front of one command. -/
structure Waiting (p : RespParser) (commands : List Command) (rest : Bytes) : Prop where
  valid : p.Valid
  first : p.rPos ≤ p.bufCap / 2
  stream : unread p ++ rest = streamOf commands
  incomplete : ∀ command later, commands = command :: later → (unread p).length < command.text.length

/-- **Between two commands**: nothing is unread. -/
structure Drained (p : RespParser) : Prop where
  valid : p.Valid
  first : p.rPos ≤ p.bufCap / 2
  empty : unread p = []
  positive : 0 < p.bufCap

variable {handle} {p : RespParser} {command : Command} {s next : σ} (fuel : Nat)

theorem serverDispatchCommands_waits (valid : p.Valid) (waits : decode (unread p) = some .needMore) :
    ∃ after, serverDispatchCommands handle protest (fuel + 1) p s = some (.live, after, s) ∧
      Stepped p after (startOf p.bufCap p.rPos) (unread p) := by
  obtain ⟨after, takes, stepped⟩ := respParserNext_waits valid waits
  refine ⟨after, ?_, stepped⟩
  rw [serverDispatchCommands, takes]
  rfl

theorem serverDispatchCommands_command (valid : p.Valid) {more : Bytes}
    (here : unread p = command.text ++ more) {closed : Bool}
    (handled : handle s command.value = some (next, closed)) : ∃ after,
      serverDispatchCommands handle protest (fuel + 1) p s =
        (if closed then some (.closedByCommand, after, next)
          else serverDispatchCommands handle protest fuel after next) ∧
      Stepped p after (startOf p.bufCap p.rPos + command.text.length) more := by
  obtain ⟨parsed, after, takes, value, stepped⟩ := respParserNext_command valid here
  refine ⟨after, ?_, stepped⟩
  rw [serverDispatchCommands, takes]
  simp only [Option.bind_some, value, handled]

/-- One command, and nothing after it. -/
theorem serverDispatchCommands_one (valid : p.Valid) (here : unread p = command.text)
    (handled : handle s command.value = some (next, false)) : ∃ after,
      serverDispatchCommands handle protest (fuel + 2) p s = some (.live, after, next) ∧
      Stepped p after (startOf p.bufCap (startOf p.bufCap p.rPos + command.text.length)) [] := by
  obtain ⟨middle, ends, stepped⟩ := serverDispatchCommands_command protest (fuel + 1) valid
    (here.trans (List.append_nil _).symm) handled
  have waits : decode (unread middle) = some .needMore := by
    rw [stepped.unread_eq]
    rfl
  obtain ⟨after, idle, again⟩ := serverDispatchCommands_waits protest fuel stepped.valid waits
  refine ⟨after, ends.trans idle, again.valid, again.bufCap_eq.trans stepped.bufCap_eq, ?_,
    again.unread_eq.trans stepped.unread_eq⟩
  rw [again.rPos_eq, stepped.rPos_eq, stepped.bufCap_eq]

variable {protest}

/-- Where reading has come: a command closed the connection, or the rest is waited for. -/
inductive Reached (handle : σ → RespValue Bytes → Option (σ × Bool)) (Inv : σ → Prop) (bufCap : Nat)
    (s : σ) (commands : List Command) (rest : Bytes) : Fate → RespParser → σ → Prop
  | closed {after : RespParser} {next : σ} :
      handleAll handle s commands = some (.closedByCommand, next) →
      Reached handle Inv bufCap s commands rest .closedByCommand after next
  | waiting {after : RespParser} {next : σ} (later : List Command) : Inv next →
      after.bufCap = bufCap → Waiting after later rest →
      handleAll handle s commands = handleAll handle next later →
      Fits handle bufCap after.rPos next later →
      Reached handle Inv bufCap s commands rest .live after next

variable {Inv : σ → Prop} {bufCap : Nat} {commands later : List Command} {rest : Bytes}

theorem Reached.after (same : handleAll handle s commands = handleAll handle next later) {fate : Fate}
    {after : RespParser} {last : σ} (reached : Reached handle Inv bufCap next later rest fate after last) :
    Reached handle Inv bufCap s commands rest fate after last := by
  cases reached with
  | closed result => exact .closed (same.trans result)
  | waiting later inv cap waiting others fits =>
    exact .waiting later inv cap waiting (same.trans others) fits

theorem handleAll_cons (handled : handle s command.value = some (next, false)) :
    handleAll handle s (command :: later) = handleAll handle next later := by
  rw [handleAll, handled]
  rfl

/-- The handler returns in every state with the invariant, and keeps it. -/
def Returns (handle : σ → RespValue Bytes → Option (σ × Bool)) (Inv : σ → Prop) : Prop :=
  ∀ s cmd, Inv s → ∃ next closed, handle s cmd = some (next, closed) ∧ Inv next

/-- **All complete commands are dispatched.** -/
theorem serverDispatchCommands_reached (returns : Returns handle Inv) :
    ∀ (commands : List Command) (fuel : Nat) (p : RespParser) (s : σ), Inv s → p.Valid →
      unread p ++ rest = streamOf commands → (unread p).length < fuel →
      Fits handle p.bufCap (startOf p.bufCap p.rPos) s commands →
      ∃ fate after next, serverDispatchCommands handle protest fuel p s = some (fate, after, next) ∧
        Reached handle Inv p.bufCap s commands rest fate after next := by
  intro commands
  induction commands with
  | nil =>
    intro fuel p s inv valid stream enough _
    obtain ⟨empty, none⟩ := List.append_eq_nil_iff.mp stream
    obtain ⟨fuel, rfl⟩ := Nat.exists_eq_succ_of_ne_zero (Nat.ne_zero_of_lt enough)
    have waits : decode (unread p) = some .needMore := by
      rw [empty]
      rfl
    obtain ⟨after, ends, stepped⟩ := serverDispatchCommands_waits protest fuel valid waits
    refine ⟨.live, after, s, ends, .waiting [] inv stepped.bufCap_eq ?_ rfl trivial⟩
    refine ⟨stepped.valid, ?_, ?_, nofun⟩
    · rw [stepped.rPos_eq, stepped.bufCap_eq]
      exact startOf_le _ _
    · rw [stepped.unread_eq]
      exact stream
  | cons command later ih =>
    intro fuel p s inv valid stream enough fits
    obtain ⟨fuel, rfl⟩ := Nat.exists_eq_succ_of_ne_zero (Nat.ne_zero_of_lt enough)
    rcases streamOf_cases stream with ⟨more, here, others⟩ | ⟨left, nonempty, front, isRest⟩
    · obtain ⟨next, closed, handled, kept⟩ := returns s command.value inv
      obtain ⟨after, ends, stepped⟩ := serverDispatchCommands_command protest fuel valid here handled
      have length := command.length_pos
      cases closed with
      | true =>
        refine ⟨.closedByCommand, after, next, ends, .closed ?_⟩
        rw [handleAll, handled]
        rfl
      | false =>
        rw [here, List.length_append] at enough
        have fitsLater := fits.2 next handled
        rw [← stepped.rPos_eq, ← stepped.bufCap_eq] at fitsLater
        obtain ⟨fate, last, final, runs, reached⟩ := ih fuel after next kept stepped.valid
          (by rw [stepped.unread_eq]; exact others) (by rw [stepped.unread_eq]; omega) fitsLater
        rw [stepped.bufCap_eq] at reached
        exact ⟨fate, last, final, ends.trans runs, reached.after (handleAll_cons handled)⟩
    · obtain ⟨after, ends, stepped⟩ :=
        serverDispatchCommands_waits protest fuel valid (command.front_waits nonempty front)
      refine ⟨.live, after, s, ends, .waiting (command :: later) inv stepped.bufCap_eq ?_ rfl ?_⟩
      · refine ⟨stepped.valid, ?_, ?_, fun first others same => ?_⟩
        · rw [stepped.rPos_eq, stepped.bufCap_eq]
          exact startOf_le _ _
        · rw [stepped.unread_eq]
          exact stream
        · cases same
          have positive := List.length_pos_of_ne_nil nonempty
          rw [stepped.unread_eq, ← front, List.length_append]
          omega
      · rw [stepped.rPos_eq]
        exact fits

end Dispatch

/-! ### Reading -/

section Reading

variable {σ : Type} {handle : σ → RespValue Bytes → Option (σ × Bool)}
  {protest destroy : σ → σ}
  {Inv : σ → Prop} {p : RespParser} {s : σ} {commands : List Command} {stream : Bytes}

/-- **There is space between two reads**, if every command ends within the buffer. -/
theorem Waiting.space (waiting : Waiting p commands stream) (positive : 0 < p.bufCap)
    (fits : Fits handle p.bufCap p.rPos s commands) : respParserSpace p ≠ 0 := by
  have length := length_unread p
  have ordered := waiting.valid.read
  have first := waiting.first
  unfold respParserSpace
  cases commands with
  | nil =>
    have empty : (unread p).length = 0 := by
      rw [(List.append_eq_nil_iff.mp waiting.stream).1]
      rfl
    omega
  | cons command later =>
    have incomplete := waiting.incomplete command later rfl
    have inside := fits.1
    omega

/-- One read of some bytes of the stream. -/
theorem connOnReadable_takes (destroy : σ → σ) (answers : List ReadAnswer) {n : Nat} {data : Bytes}
    {fate : Fate}
    {after : RespParser} {next : σ} (space : respParserSpace p ≠ 0)
    (isData : stream.take (min (n + 1) (respParserSpace p)) = data) (some_data : data ≠ [])
    (dispatched : serverDispatchCommands handle protest (p.wPos + data.length + 1) (appendBytes p data) s =
      some (fate, after, next)) :
    connOnReadable handle protest destroy (.takes n :: answers) stream p s =
      if fate = .live then connOnReadable handle protest destroy answers (stream.drop data.length) after next
      else some (fate, stream.drop data.length, after, next) := by
  rw [connOnReadable, if_neg space]
  dsimp only
  rw [isData, if_neg some_data, dispatched]
  rfl

/-- **Every way to cut the stream.** -/
theorem connOnReadable_reached (returns : Returns handle Inv) :
    ∀ (cuts : List Nat) (stream : Bytes) (p : RespParser) (s : σ) (commands : List Command), Inv s →
      Waiting p commands stream → 0 < p.bufCap → Fits handle p.bufCap p.rPos s commands →
      ∃ fate rest after next,
        connOnReadable handle protest destroy (cuts.map .takes) stream p s = some (fate, rest, after, next) ∧
        Reached handle Inv p.bufCap s commands rest fate after next := by
  intro cuts
  induction cuts with
  | nil =>
    intro stream p s commands inv waiting positive fits
    exact ⟨.live, stream, p, s, if_neg (waiting.space positive fits),
      .waiting commands inv rfl waiting rfl fits⟩
  | cons n cuts ih =>
    intro stream p s commands inv waiting positive fits
    have space := waiting.space positive fits
    by_cases none : stream.take (min (n + 1) (respParserSpace p)) = []
    · refine ⟨.live, stream, p, s, ?_, .waiting commands inv rfl waiting rfl fits⟩
      rw [List.map_cons, connOnReadable, if_neg space]
      exact if_pos none
    · obtain ⟨data, isData⟩ : ∃ data, stream.take (min (n + 1) (respParserSpace p)) = data := ⟨_, rfl⟩
      have room : p.wPos + data.length ≤ p.bufCap := by
        have written := waiting.valid.written
        rw [← isData, List.length_take]
        unfold respParserSpace
        omega
      have split : data ++ stream.drop data.length = stream :=
        List.prefix_iff_eq_append.mp (isData ▸ List.take_prefix _ _)
      obtain ⟨valid, joined⟩ := appendBytes_spec waiting.valid room
      have whole : unread (appendBytes p data) ++ stream.drop data.length = streamOf commands := by
        rw [joined, List.append_assoc, split]
        exact waiting.stream
      have enough : (unread (appendBytes p data)).length < p.wPos + data.length + 1 := by
        rw [joined, List.length_append, length_unread]
        omega
      have started : Fits handle (appendBytes p data).bufCap
          (startOf (appendBytes p data).bufCap (appendBytes p data).rPos) s commands := by
        change Fits handle p.bufCap (startOf p.bufCap p.rPos) s commands
        rwa [startOf_of_le waiting.first]
      obtain ⟨fate, after, next, dispatched, reached⟩ := serverDispatchCommands_reached returns commands
        (p.wPos + data.length + 1) (appendBytes p data) s inv valid whole enough started
      have reads := connOnReadable_takes destroy (cuts.map .takes) space isData
        (fun empty => none (isData.trans empty)) dispatched
      cases reached with
      | closed result => exact ⟨.closedByCommand, _, after, next, reads, .closed result⟩
      | waiting later kept cap waits same others =>
        obtain ⟨fate, rest, last, final, ends, reached⟩ := ih _ after next later kept waits
          (by rw [cap]; exact positive) (by rw [cap]; exact others)
        rw [cap] at reached
        exact ⟨fate, rest, last, final, reads.trans ends, reached.after same⟩

/-- **All callbacks.** -/
theorem readEvents_reached (returns : Returns handle Inv) :
    ∀ (cuts : List (List Nat)) (stream : Bytes) (p : RespParser) (s : σ) (commands : List Command),
      Inv s → Waiting p commands stream → 0 < p.bufCap → Fits handle p.bufCap p.rPos s commands →
      ∃ fate rest after next, readEvents handle protest destroy (cuts.map (List.map .takes)) stream p s =
          some (fate, rest, after, next) ∧
        Reached handle Inv p.bufCap s commands rest fate after next := by
  intro cuts
  induction cuts with
  | nil =>
    intro stream p s commands inv waiting _ fits
    exact ⟨.live, stream, p, s, rfl, .waiting commands inv rfl waiting rfl fits⟩
  | cons callback cuts ih =>
    intro stream p s commands inv waiting positive fits
    obtain ⟨fate, rest, after, next, reads, reached⟩ :=
      connOnReadable_reached returns callback stream p s commands inv waiting positive fits
    rw [List.map_cons, readEvents, reads]
    cases reached with
    | closed result => exact ⟨.closedByCommand, rest, after, next, rfl, .closed result⟩
    | waiting later kept cap waits same others =>
      obtain ⟨fate, left, last, final, ends, reached⟩ := ih rest after next later kept waits
        (by rw [cap]; exact positive) (by rw [cap]; exact others)
      rw [cap] at reached
      exact ⟨fate, left, last, final, ends, reached.after same⟩

/-- **Through `resp_parser_feed`** every command is handled. -/
theorem feedEvents_eq (returns : Returns handle Inv) :
    ∀ (commands : List Command) (start : Nat) (p : RespParser) (s : σ), Inv s → p.Valid → unread p = [] →
      Fits handle p.bufCap start s commands → ∃ fate after next,
        feedEvents handle protest (commands.map Command.text) p s = some (fate, after, next) ∧
        handleAll handle s commands = some (fate, next) := by
  intro commands
  induction commands with
  | nil => exact fun _ p s _ _ _ _ => ⟨.live, p, s, rfl, rfl⟩
  | cons command later ih =>
    intro start p s inv valid empty fits
    have positive := command.length_pos
    have inside := fits.1
    obtain ⟨fed, feeds, cap⟩ := respParserFeed_of_room valid command.text
      (by rw [empty, List.length_nil]; omega)
    obtain ⟨fedValid, text⟩ := respParserFeed_spec valid feeds
    rw [empty, List.nil_append] at text
    have written : 0 < fed.wPos := by
      have length := length_unread fed
      rw [text] at length
      omega
    obtain ⟨fuel, isFuel⟩ := Nat.exists_eq_succ_of_ne_zero written.ne'
    obtain ⟨next, closed, handled, kept⟩ := returns s command.value inv
    rw [List.map_cons, feedEvents, feeds]
    dsimp only
    rw [isFuel]
    cases closed with
    | true =>
      obtain ⟨after, ends, -⟩ := serverDispatchCommands_command protest (fuel + 1) fedValid
        (text.trans (List.append_nil _).symm) handled
      refine ⟨.closedByCommand, after, next, by rw [ends]; rfl, ?_⟩
      rw [handleAll, handled]
      rfl
    | false =>
      obtain ⟨after, ends, stepped⟩ := serverDispatchCommands_one protest fuel fedValid text handled
      obtain ⟨fate, final, result, runs, others⟩ := ih _ after next kept stepped.valid
        stepped.unread_eq (by rw [stepped.bufCap_eq, cap]; exact fits.2 next handled)
      refine ⟨fate, final, result, ?_, (handleAll_cons handled).trans others⟩
      rw [ends]
      exact runs

/-- Between two commands the free end of the buffer is all that is behind `r_pos`. -/
theorem Drained.wPos_eq (drained : Drained p) : p.wPos = p.rPos := by
  have none := length_unread p
  have ordered := drained.valid.read
  rw [drained.empty, List.length_nil] at none
  omega

/-- What is read between two commands is what is unread. -/
theorem Drained.appendBytes (drained : Drained p) {data : Bytes}
    (room : p.rPos + data.length ≤ p.bufCap) :
    (appendBytes p data).Valid ∧ unread (appendBytes p data) = data := by
  obtain ⟨valid, text⟩ :=
    appendBytes_spec drained.valid (by rw [drained.wPos_eq]; exact room : p.wPos + data.length ≤ p.bufCap)
  rw [drained.empty, List.nil_append] at text
  exact ⟨valid, text⟩

/-- **A command that ends within the buffer can be taken with one read.** -/
theorem connOnReadable_command (protest destroy : σ → σ) {command : Command} {next : σ}
    (drained : Drained p) (inside : p.rPos + command.text.length ≤ p.bufCap)
    (handled : handle s command.value = some (next, false)) : ∃ after, Drained after ∧
      after.bufCap = p.bufCap ∧ after.rPos = startOf p.bufCap (p.rPos + command.text.length) ∧
      ∀ answers stream, connOnReadable handle protest destroy
        (.takes (command.text.length - 1) :: answers) (command.text ++ stream) p s =
          connOnReadable handle protest destroy answers stream after next := by
  have length := command.length_pos
  have written := drained.wPos_eq
  have space : respParserSpace p = p.bufCap - p.rPos := by rw [respParserSpace, written]
  obtain ⟨readValid, text⟩ := drained.appendBytes inside
  obtain ⟨fuel, isFuel⟩ := Nat.exists_eq_add_of_lt (show 0 < p.wPos + command.text.length by omega)
  obtain ⟨after, dispatched, stepped⟩ :=
    serverDispatchCommands_one protest fuel readValid text handled
  rw [show fuel + 2 = p.wPos + command.text.length + 1 by omega] at dispatched
  have cap : after.bufCap = p.bufCap := stepped.bufCap_eq
  have start : after.rPos = startOf p.bufCap (p.rPos + command.text.length) := by
    rw [stepped.rPos_eq]
    change startOf p.bufCap (startOf p.bufCap p.rPos + _) = _
    rw [startOf_of_le drained.first]
  refine ⟨after, ⟨stepped.valid, ?_, stepped.unread_eq, cap ▸ drained.positive⟩, cap, start,
    fun answers stream => ?_⟩
  · rw [start, cap]
    exact startOf_le _ _
  · have isData : (command.text ++ stream).take
        (min (command.text.length - 1 + 1) (respParserSpace p)) = command.text := by
      rw [space, Nat.sub_add_cancel length, Nat.min_eq_left (by omega), List.take_left]
    rw [connOnReadable_takes destroy answers (by omega) isData (List.ne_nil_of_length_pos length)
      dispatched, if_pos rfl, List.drop_left]

/-- **One read fills the buffer with the front of a command that does not end within it**, and the
connection is given up. -/
theorem connOnReadable_fills (protest destroy : σ → σ) {command : Command} (drained : Drained p)
    (outside : p.bufCap < p.rPos + command.text.length) : ∃ rest after,
      connOnReadable handle protest destroy [.takes (p.bufCap - p.rPos - 1)] (command.text ++ stream) p s =
        some (.noSpace, rest, after, destroy s) := by
  have positive := drained.positive
  have first := drained.first
  have some_space : 0 < p.bufCap - p.rPos := by omega
  have space : respParserSpace p = p.bufCap - p.rPos := by rw [respParserSpace, drained.wPos_eq]
  obtain ⟨data, front⟩ : ∃ data, command.text.take (p.bufCap - p.rPos) = data := ⟨_, rfl⟩
  have size : data.length = p.bufCap - p.rPos := by
    rw [← front]
    exact List.length_take_of_le (by omega)
  have isData : (command.text ++ stream).take
      (min (p.bufCap - p.rPos - 1 + 1) (respParserSpace p)) = data := by
    rw [space, Nat.sub_add_cancel some_space, Nat.min_self, ← front,
      List.take_append_of_le_length (by omega)]
  obtain ⟨readValid, text⟩ := drained.appendBytes (by omega : p.rPos + data.length ≤ p.bufCap)
  have waits : decode (unread (appendBytes p data)) = some .needMore := by
    rw [text, ← front]
    exact command.front_waits (List.ne_nil_of_length_pos (by rw [List.length_drop]; omega))
      (List.take_append_drop _ _)
  obtain ⟨after, dispatched, stepped⟩ : ∃ after, serverDispatchCommands handle protest
      (p.wPos + data.length + 1) (appendBytes p data) s = some (.live, after, s) ∧ _ :=
    serverDispatchCommands_waits protest _ readValid waits
  have full : respParserSpace after = 0 := by
    have unread_length := length_unread after
    have ordered := stepped.valid.read
    have start : after.rPos = p.rPos := stepped.rPos_eq.trans (startOf_of_le first)
    have cap : after.bufCap = p.bufCap := stepped.bufCap_eq
    rw [stepped.unread_eq, text, size] at unread_length
    unfold respParserSpace
    omega
  refine ⟨(command.text ++ stream).drop data.length, after, ?_⟩
  rw [connOnReadable_takes destroy [] (by omega) isData (List.ne_nil_of_length_pos (by omega))
    dispatched, if_pos rfl]
  exact if_pos full

/-- **A command that does not end within the buffer can be starved.** -/
theorem starves (protest destroy : σ → σ) (returns : Returns handle Inv) :
    ∀ (commands : List Command) (p : RespParser) (s : σ), Inv s → Drained p →
      ¬ Fits handle p.bufCap p.rPos s commands →
      ∃ (cuts : List Nat) (rest : Bytes) (after : RespParser) (next : σ),
        connOnReadable handle protest destroy (cuts.map .takes) (streamOf commands) p s =
          some (.noSpace, rest, after, destroy next) := by
  intro commands
  induction commands with
  | nil => exact fun p s _ _ starved => absurd trivial starved
  | cons command later ih =>
    intro p s inv drained starved
    rw [show streamOf (command :: later) = command.text ++ streamOf later from List.flatten_cons]
    by_cases inside : p.rPos + command.text.length ≤ p.bufCap
    · -- the command is read with one read, and the rest is starved
      obtain ⟨next, handled, starvedLater⟩ : ∃ next, handle s command.value = some (next, false) ∧
          ¬ Fits handle p.bufCap (startOf p.bufCap (p.rPos + command.text.length)) next later := by
        by_contra none
        push Not at none
        exact starved ⟨inside, none⟩
      have kept : Inv next := by
        obtain ⟨_, _, same, kept⟩ := returns s command.value inv
        cases handled.symm.trans same
        exact kept
      obtain ⟨after, drainedAfter, cap, start, reads⟩ :=
        connOnReadable_command protest destroy drained inside handled
      obtain ⟨cuts, rest, last, final, ends⟩ :=
        ih after next kept drainedAfter (by rw [start, cap]; exact starvedLater)
      exact ⟨(command.text.length - 1) :: cuts, rest, last, final, (reads _ _).trans ends⟩
    · obtain ⟨rest, after, fills⟩ := connOnReadable_fills protest destroy drained (Nat.not_le.mp inside)
      exact ⟨[p.bufCap - p.rPos - 1], rest, after, s, fills⟩

end Reading

/-! ### The two ways into the buffer -/

section Starvation

variable {σ : Type} (handle : σ → RespValue Bytes → Option (σ × Bool))
  (protest destroy : σ → σ)
  {Inv : σ → Prop} {p : RespParser} {s : σ} {commands : List Command}

/-- However the reads cut the stream, and whatever the number of callbacks, the connection is not
destroyed for lack of space. Once all of the stream is read, or a command has closed the connection,
the state is the one that the same commands lead to through `resp_parser_feed`. -/
def ReadsAll (commands : List Command) (p : RespParser) (s : σ) : Prop :=
  ∀ cuts : List (List Nat), ∃ fate rest after next,
    readEvents handle protest destroy (cuts.map (List.map .takes)) (streamOf commands) p s =
      some (fate, rest, after, next) ∧
    fate ≠ .noSpace ∧
    (rest = [] ∨ fate ≠ .live → ∃ fed,
      feedEvents handle protest (commands.map Command.text) p s = some (fate, fed, next))

variable {handle}

theorem Waiting.none_left {rest : Bytes} (waiting : Waiting p commands rest) (all : rest = []) :
    commands = [] := by
  cases commands with
  | nil => rfl
  | cons command later =>
    have incomplete := waiting.incomplete command later rfl
    have stream := waiting.stream
    rw [all, List.append_nil] at stream
    rw [stream, streamOf, List.map_cons, List.flatten_cons, List.length_append] at incomplete
    omega

theorem Drained.waiting (drained : Drained p) (commands : List Command) :
    Waiting p commands (streamOf commands) := by
  refine ⟨drained.valid, drained.first, by rw [drained.empty]; rfl, fun command later _ => ?_⟩
  rw [drained.empty]
  exact command.length_pos

/-- A new parser is drained. -/
theorem Drained.of_init {malloc : Nat → Option (Nat → UInt8)}
    (bounded : ∀ size buf, malloc size = some buf → size < 2 ^ 63 - 1) {bufCap : Nat}
    (made : respParserInitEx malloc bufCap = some p) : Drained p := by
  obtain ⟨valid, empty⟩ := respParserInitEx_spec bounded made
  obtain ⟨buf, -, rfl⟩ := Option.map_eq_some_iff.mp made
  refine ⟨valid, Nat.zero_le _, empty, ?_⟩
  dsimp only
  split
  · decide
  · omega

theorem Reached.handleAll_eq {bufCap : Nat} {rest : Bytes} {fate : Fate} {after : RespParser} {next : σ}
    (reached : Reached handle Inv bufCap s commands rest fate after next)
    (finished : rest = [] ∨ fate ≠ .live) : handleAll handle s commands = some (fate, next) := by
  cases reached with
  | closed result => exact result
  | waiting later _ _ waiting same _ =>
    have all : rest = [] := finished.resolve_right fun live => live rfl
    rw [same, waiting.none_left all]
    rfl

theorem Reached.ne_noSpace {bufCap : Nat} {rest : Bytes} {fate : Fate} {after : RespParser} {next : σ}
    (reached : Reached handle Inv bufCap s commands rest fate after next) : fate ≠ .noSpace := by
  cases reached <;> exact nofun

/-- **The read path takes what the buffer can hold exactly if every command ends within it**, behind
the place where it starts. -/
theorem readsAll_iff (returns : Returns handle Inv) (inv : Inv s) (drained : Drained p) :
    ReadsAll handle protest destroy commands p s ↔ Fits handle p.bufCap p.rPos s commands := by
  constructor
  · intro reads
    by_contra starved
    obtain ⟨cuts, rest, after, next, ends⟩ :=
      starves protest destroy returns commands p s inv drained starved
    obtain ⟨fate, _, _, _, runs, space, -⟩ := reads [cuts]
    rw [List.map_singleton, readEvents, ends] at runs
    cases runs
    exact space rfl
  · intro fits cuts
    obtain ⟨fate, rest, after, next, runs, reached⟩ := readEvents_reached returns cuts
      (streamOf commands) p s commands inv (drained.waiting commands) drained.positive fits
    refine ⟨fate, rest, after, next, runs, reached.ne_noSpace, fun finished => ?_⟩
    obtain ⟨other, fed, final, feeds, result⟩ :=
      feedEvents_eq returns commands p.rPos p s inv drained.valid drained.empty fits
    cases result.symm.trans (reached.handleAll_eq finished)
    exact ⟨fed, feeds⟩

/-- Commands of at most half of the buffer always fit. -/
theorem fits_of_short {bufCap : Nat} : ∀ (commands : List Command) (start : Nat) (s : σ),
    start ≤ bufCap / 2 → (∀ command ∈ commands, command.text.length ≤ bufCap - bufCap / 2) →
      Fits handle bufCap start s commands
  | [], _, _, _, _ => trivial
  | command :: later, start, s, first, short => by
    have length := short command List.mem_cons_self
    refine ⟨by omega, fun next _ => ?_⟩
    exact fits_of_short later _ next (startOf_le _ _) fun command member =>
      short command (List.mem_cons_of_mem _ member)

end Starvation

end Zedis.Connection

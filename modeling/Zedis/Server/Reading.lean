/-
**The read path of the server.**

`Zedis.Connection.Reader` leaves open what a command does. Here a command is handled by
`server_handle_command`, and the connection is destroyed if that returned `1`, or left it marked as
closed. The handlers return in every state with the invariant, so the reads of a connection are starved
exactly if a command does not end within the buffer.
-/

import Zedis.Connection.Starvation
import Zedis.Server.Reach

namespace Zedis.Server

open Zedis.Lib Zedis.Resp Zedis.Connection

/-- What `server_dispatch_commands` does with a command: the state after it, and whether it returns
`1`, the connection being destroyed. -/
def dispatchCommand (fd : Nat) (server : ZedisServer) (cmd : RespValue Bytes) :
    Option (ZedisServer × Bool) :=
  (serverHandleCommand server fd cmd).map fun (closed, server) =>
    if closed ≠ 0 then (server, true)
    else if (connOf server fd).any Conn.closed then (connDestroy server fd, true)
    else (server, false)

/-- What it does after a protocol error. -/
def protocolError (fd : Nat) (server : ZedisServer) : ZedisServer :=
  connDestroy (sendFormatted server fd 64 (respFormatError 64 (ascii "ERR protocol error"))).2 fd

/-- However the reads cut them, these commands are dispatched as through `resp_parser_feed`, and the
connection is not destroyed for lack of space; `p` is the parser of the connection. -/
def ReadsCommands (server : ZedisServer) (fd : Nat) (p : RespParser) (commands : List Command) : Prop :=
  ReadsAll (dispatchCommand fd) (protocolError fd) (fun server => connDestroy server fd) commands p server

/-- Every command, up to one that closes the connection, ends within the parser's buffer. -/
def EndWithin (server : ZedisServer) (fd : Nat) (p : RespParser) (commands : List Command) : Prop :=
  Fits (dispatchCommand fd) p.bufCap p.rPos server commands

section Reading

variable {server : ZedisServer} {p : RespParser}

theorem returns_dispatchCommand (fd : Nat) : Returns (dispatchCommand fd) ServerInv := by
  intro server cmd inv
  obtain ⟨closed, after, _, _, ends, emits, _⟩ := serverHandleCommand_handled inv fd cmd
  rw [dispatchCommand, ends, Option.map_some]
  dsimp only
  split
  · exact ⟨after, true, rfl, emits.inv⟩
  · split
    · exact ⟨_, true, rfl, emits.inv.connDestroy fd⟩
    · exact ⟨after, false, rfl, emits.inv⟩

/-- **A stream of commands is read, however it is cut, exactly if each command ends within the buffer**,
where the first one starts at `r_pos`, and each other one where the one before it ends, or at `0` if
that is in the second half of the buffer. -/
theorem reads_commands_iff (inv : ServerInv server) (fd : Nat) (drained : Drained p)
    (commands : List Command) :
    ReadsCommands server fd p commands ↔ EndWithin server fd p commands :=
  readsAll_iff (protocolError fd) _ (returns_dispatchCommand fd) inv drained

end Reading

/-! ### A starved command -/

section Sample

/-- The command that is the encoding of some words. -/
def wordsCommand (words : List Bytes) (fits : (encode (bulks words)).length ≤ 64 * 1024) : Command where
  text := encode (bulks words)
  value := bulks words
  complete := by
    have small : (encode (bulks words)).length < 2 ^ 63 := fits.trans_lt (by decide)
    have encodable : Encodable (bulks words) := encodable_bulks words
    have decoded := decode_encode encodable (sized_of_length small) []
    rwa [List.append_nil] at decoded

theorem exists_pingServer : ∃ server conn next, Reachable server ∧ idle server 5 = true ∧
    connOf server 5 = some conn ∧ conn.parser.bufCap = 64 * 1024 ∧ conn.parser.rPos = 0 ∧
    Drained conn.parser ∧ dispatchCommand 5 server (bulks [ascii "PING"]) = some (next, false) := by
  have pinged : ((sampleServer [sampleClient []]).map fun server => (idle server 5,
      (connOf server 5).map fun conn => (conn.parser.bufCap, conn.parser.wPos, conn.parser.rPos),
      (dispatchCommand 5 server (bulks [ascii "PING"])).map Prod.snd)) =
        some (true, some (64 * 1024, 0, 0), some false) := by decide +kernel
  obtain ⟨server, -, reach, seen⟩ := exists_sampleServer pinged
  obtain ⟨isIdle, seen⟩ := Prod.mk.inj seen
  obtain ⟨places, stays⟩ := Prod.mk.inj seen
  obtain ⟨conn, found, same⟩ := Option.map_eq_some_iff.mp places
  obtain ⟨cap, same⟩ := Prod.mk.inj same
  obtain ⟨written, start⟩ := Prod.mk.inj same
  obtain ⟨⟨next, closed⟩, handled, same⟩ := Option.map_eq_some_iff.mp stays
  cases same
  have empty : unread conn.parser = [] := by
    apply List.eq_nil_of_length_eq_zero
    rw [length_unread, written, Nat.zero_sub]
  refine ⟨server, conn, next, reach, isIdle, found, cap, start,
    ⟨⟨?_, ?_, ?_⟩, ?_, empty, ?_⟩, handled⟩
  all_goals omega

theorem length_echo (data : Bytes) : (encode (bulks [ascii "ECHO", data])).length =
    (decimal data.length).length + data.length + 19 := by
  simp only [bulks, List.map_cons, List.map_nil, encode, encodeAll, List.length_cons, List.length_append,
    List.length_nil, show crlf.length = 2 from rfl, show (ascii "ECHO").length = 4 from rfl,
    show (decimal 4).length = 1 from rfl, show (decimal (0 + 1 + 1)).length = 1 from rfl]
  omega

theorem length_longEcho :
    (encode (bulks [ascii "ECHO", List.replicate 65512 97])).length = 64 * 1024 := by
  rw [length_echo, List.length_replicate]
  decide

/-- `PING`, and an `ECHO` that takes all of the buffer. -/
def pingEcho : List Command :=
  [wordsCommand [ascii "PING"] (by decide),
    wordsCommand [ascii "ECHO", List.replicate 65512 97] length_longEcho.le]

/-- **A command that the buffer can hold is starved** if a `PING` comes before it. -/
theorem long_command_starved : ∃ server conn, Reachable server ∧ idle server 5 = true ∧
    connOf server 5 = some conn ∧ Drained conn.parser ∧
    (∀ command ∈ pingEcho, command.text.length ≤ conn.parser.bufCap) ∧
    (∃ (cuts : List Nat) (rest : Bytes) (after : RespParser) (next : ZedisServer),
      connOnReadable (dispatchCommand 5) (protocolError 5) (fun server => connDestroy server 5)
        (cuts.map .takes) (streamOf pingEcho) conn.parser server =
          some (.noSpace, rest, after, connDestroy next 5)) ∧
    ¬ ReadsCommands server 5 conn.parser pingEcho := by
  obtain ⟨server, conn, next, reach, isIdle, found, cap, start, drained, handled⟩ := exists_pingServer
  have starved : ¬ Fits (dispatchCommand 5) conn.parser.bufCap conn.parser.rPos server pingEcho := by
    intro fits
    have second := (fits.2 next handled).1
    rw [cap, start] at second
    have echo : (wordsCommand [ascii "ECHO", List.replicate 65512 97] length_longEcho.le).text.length =
        64 * 1024 := length_longEcho
    have ping : startOf (64 * 1024) (0 + (wordsCommand [ascii "PING"] (by decide)).text.length) = 14 := by
      decide
    omega
  refine ⟨server, conn, reach, isIdle, found, drained, ?_, ?_, ?_⟩
  · rw [cap]
    intro command member
    rcases List.mem_pair.mp member with rfl | rfl
    · decide
    · exact length_longEcho.le
  · exact starves _ _ (returns_dispatchCommand 5) pingEcho conn.parser server reach.inv drained starved
  · exact mt (readsAll_iff _ _ (returns_dispatchCommand 5) reach.inv drained).mp starved

/-- Two short commands are read, however they are cut. -/
theorem reads_commands_iff_short : ∃ server conn, ServerInv server ∧ connOf server 5 = some conn ∧
    Drained conn.parser ∧
    ReadsCommands server 5 conn.parser
      [wordsCommand [ascii "PING"] (by decide), wordsCommand [ascii "ECHO", crlf] (by decide)] := by
  obtain ⟨server, conn, _, reach, _, found, cap, _, drained, _⟩ := exists_pingServer
  refine ⟨server, conn, reach.inv, found, drained, ?_⟩
  apply (reads_commands_iff reach.inv 5 drained _).mpr
  apply fits_of_short _ _ _ drained.first
  rw [cap]
  decide

end Sample

end Zedis.Server

/-
**The read side of a connection (`conn_on_readable` of `src/conn.c`, `server_dispatch_commands` of
`src/server.c`).**

`conn_on_readable` reads into the free end of the parser's buffer until the socket has nothing left,
and after each read dispatches the commands that are complete. It gives up a connection whose buffer
has no free end. `resp_parser_feed`, the other way into the buffer, moves the unread bytes to its front
when the end is full.

What a command does is left open: `handle` gives the state after it, and whether the connection was
destroyed, because the handler returned `1` or marked the connection as closed; `protest` is the reply
to a protocol error, after which the connection is destroyed as well; `destroy` is `conn_destroy`.
-/

import Zedis.Resp.Chunks

namespace Zedis.Connection

open Zedis.Lib Zedis.Resp

/-- An answer to `read`: `n + 1` bytes are given, or as many as there are and as were asked for; or the
end of the stream; or an error other than `EAGAIN`. -/
inductive ReadAnswer
  | takes (n : Nat)
  | closes
  | fails
deriving DecidableEq, Repr

/-- Whether the connection is still there, and if not, why it was destroyed. -/
inductive Fate
  | live
  | closedByCommand
  | protocolError
  | noSpace
  | endOfStream
  | readError
deriving DecidableEq, Repr

/-- `resp_parser_space`. -/
def respParserSpace (p : RespParser) : Nat := p.bufCap - p.wPos

section Reader

variable {σ : Type} (handle : σ → RespValue Bytes → Option (σ × Bool)) (protest : σ → σ)

/-- `server_dispatch_commands`, at most `fuel` calls of `resp_parser_next`. -/
def serverDispatchCommands : Nat → RespParser → σ → Option (Fate × RespParser × σ)
  | 0, _, _ => none
  | fuel + 1, p, s =>
    (respParserNext p).bind fun (verdict, p) =>
      match verdict with
      | .needMore => some (.live, p, s)
      | .error => some (.protocolError, p, protest s)
      | .ok cmd =>
        (handle s (cmd.contents p.buf)).bind fun (s, closed) =>
          if closed then some (.closedByCommand, p, s) else serverDispatchCommands fuel p s

variable (destroy : σ → σ)

/-- `conn_on_readable`, for the answers of `read` up to an `EAGAIN`: what became of the connection, the
bytes that were not read, the parser and the state. A socket without bytes answers `EAGAIN`. -/
def connOnReadable : List ReadAnswer → Bytes → RespParser → σ → Option (Fate × Bytes × RespParser × σ)
  | [], stream, p, s =>
    if respParserSpace p = 0 then some (.noSpace, stream, p, destroy s) else some (.live, stream, p, s)
  | answer :: answers, stream, p, s =>
    if respParserSpace p = 0 then some (.noSpace, stream, p, destroy s)
    else
      match answer with
      | .closes => some (.endOfStream, stream, p, destroy s)
      | .fails => some (.readError, stream, p, destroy s)
      | .takes n =>
        let data := stream.take (min (n + 1) (respParserSpace p))
        if data = [] then some (.live, stream, p, s)
        else
          (serverDispatchCommands handle protest (p.wPos + data.length + 1) (appendBytes p data) s).bind
            fun (fate, p, s) =>
              if fate = .live then connOnReadable answers (stream.drop data.length) p s
              else some (fate, stream.drop data.length, p, s)

/-- The callbacks of a connection, one after the other. -/
def readEvents : List (List ReadAnswer) → Bytes → RespParser → σ →
    Option (Fate × Bytes × RespParser × σ)
  | [], stream, p, s => some (.live, stream, p, s)
  | answers :: events, stream, p, s =>
    (connOnReadable handle protest destroy answers stream p s).bind fun (fate, stream, p, s) =>
      if fate = .live then readEvents events stream p s else some (fate, stream, p, s)

/-- The same through `resp_parser_feed`: the texts are fed one by one, and after each of them the
commands are dispatched. -/
def feedEvents : List Bytes → RespParser → σ → Option (Fate × RespParser × σ)
  | [], p, s => some (.live, p, s)
  | text :: texts, p, s =>
    match respParserFeed p text with
    | none => some (.noSpace, p, s)
    | some p =>
      (serverDispatchCommands handle protest (p.wPos + 1) p s).bind fun (fate, p, s) =>
        if fate = .live then feedEvents texts p s else some (fate, p, s)

end Reader

end Zedis.Connection

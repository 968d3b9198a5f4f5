/-
**The server: command handlers and dispatcher (`src/server.c`, `include/server.h`).**

A handler reads its arguments from the parsed command, calls the stores, formats a reply in a local
buffer and gives it to `conn_queue_write`. `calls` records these calls and is read by nothing. A call
may announce more bytes than the buffer has, or more than were written to it; what it then reads is
whatever the memory holds there, which is `stack`.

An `int64_t` variable holds what is stored in it modulo `2 ^ 64`. A string in a command is a slice of
the parser's buffer of 64 KiB, so `(int)len` is its length. The metrics count commands and nothing
else; they are left out.
-/

import Zedis.Connection.Model
import Zedis.Lib.Double
import Zedis.OrderBook.Model
import Zedis.Registry.Model
import Zedis.Resp.Format
import Zedis.RingBuffer.Model
import Zedis.Slab.Model

namespace Zedis.Server

open Zedis.Lib Zedis.Arena Zedis.HashTable Zedis.BTree Zedis.AppendLog Zedis.Registry Zedis.Resp
open Zedis.Connection Zedis.OrderBook Zedis.RingBuffer Zedis.Slab

/-! ### State -/

/-- The first `n` bytes of a local buffer to which `written` was written, `stack` being what the memory
held before. -/
def readBuffer (stack : Nat → UInt8) (written : Bytes) (n : Nat) : Bytes :=
  segment (store stack 0 written) 0 n

/-- A call `conn_queue_write(conn, buf, n)`: the connection, the size of `buf`, what was written to it,
`n`, and whether the call is the push of a published message. -/
structure QueueCall where
  fd : Nat
  size : Nat
  written : Bytes
  n : Nat
  push : Bool
deriving DecidableEq, Repr

/-- The bytes a call passes on. -/
def QueueCall.data (call : QueueCall) (stack : Nat → UInt8) : Bytes :=
  readBuffer stack call.written call.n

/-- `zedis_server_t`, less the allocators, the event loop and the metrics. `log` is `aol`; `conns` are
the connections from `conns_head` on. -/
structure ZedisServer extends Registries where
  kv : ZedisHashTable
  book : ZedisOrderBook
  ring : ZedisRingBuffer
  conns : List Conn
  calls : List QueueCall
  stack : Nat → UInt8

/-- The connections with one of them changed. -/
def changeConn (conns : List Conn) (fd : Nat) (change : Conn → Conn) : List Conn :=
  conns.map fun conn => if conn.fd = fd then change conn else conn

/-- A call of `conn_queue_write`, on a write buffer of its own; `sharedWrite` has the eight bytes of it that
are not. -/
def queueWrite (server : ZedisServer) (call : QueueCall) : ZedisServer :=
  { server with
    conns := changeConn server.conns call.fd fun conn =>
      (connQueueWrite conn (call.data server.stack)).2
    calls := server.calls ++ [call] }

/-! ### Strings and numbers -/

/-- The letters `A` to `Z` in lower case. -/
def toLower (b : UInt8) : UInt8 := if 65 ≤ b ∧ b ≤ 90 then b - 65 + 97 else b

/-- `str_case_equal`. -/
def strCaseEqual (a b : Bytes) : Bool :=
  (cstr b).length == a.length && a.map toLower == (cstr b).map toLower

/-- `parse_i64`: `none` is the return value `-1`. The body of its loop is that of
`resp__parse_int`. -/
def parseI64 (s : Bytes) : Option Int :=
  if s.length = 0 then none
  else
    let negative := s.head? == some 45
    let digits := if negative then s.tail else s
    if digits.length = 0 then none
    else (digits.foldlM digitStep 0).map fun value => if negative then wrap64 (-value) else value

/-- `parse_int`: `none` is the return value `-1`. -/
def parseInt (s : Bytes) : Option Int := (parseI64 s).map wrap32

/-! ### Replies -/

/-- The end of the `reply_*` helpers: the reply is sent if it was formatted. -/
def sendFormatted (server : ZedisServer) (fd size : Nat) (reply : Formatted) : Int × ZedisServer :=
  match reply.ret with
  | some n => (0, if n > 0 then queueWrite server ⟨fd, size, reply.written, n, false⟩ else server)
  | none => (0, server)

/-- `reply_error`. -/
def replyError (server : ZedisServer) (fd : Nat) (msg : Bytes) : Int × ZedisServer :=
  sendFormatted server fd 512 (respFormatError 512 msg)

/-- `reply_simple`. -/
def replySimple (server : ZedisServer) (fd : Nat) (msg : Bytes) : Int × ZedisServer :=
  sendFormatted server fd 512 (respFormatSimple 512 msg)

/-- `reply_integer`. -/
def replyInteger (server : ZedisServer) (fd : Nat) (v : Int) : Int × ZedisServer :=
  sendFormatted server fd 64 (respFormatInteger 64 (wrap64 v))

/-- `reply_bulk`. -/
def replyBulk (server : ZedisServer) (fd : Nat) (s : Bytes) : Int × ZedisServer :=
  sendFormatted server fd 4096 (respFormatBulk 4096 s)

/-- `reply_null`. -/
def replyNull (server : ZedisServer) (fd : Nat) : Int × ZedisServer :=
  sendFormatted server fd 64 (respFormatNull 64)

/-- A reply printed with `snprintf`, whose return value is passed on: `text` is what it would print to
a buffer that is large enough. -/
def sendPrinted (server : ZedisServer) (fd size : Nat) (text : Bytes) : Int × ZedisServer :=
  (0, if text.length > 0 then queueWrite server ⟨fd, size, snprintf size text, text.length, false⟩
    else server)

/-! ### Arguments -/

/-- `array_nth`. -/
def arrayNth (cmd : List (RespValue Bytes)) (n : Nat) : Option (RespValue Bytes) := cmd[n]?

/-- `cmd_bulk`: `none` is the return value `-1`. -/
def cmdBulk (cmd : List (RespValue Bytes)) (index : Nat) : Option Bytes :=
  match arrayNth cmd index with
  | some (.bulk data) => some data
  | _ => none

/-- A handler, for the elements of the command; `none` if a loop of a store has not returned. -/
abbrev CommandHandlerFn := ZedisServer → Nat → List (RespValue Bytes) → Option (Int × ZedisServer)

/-! ### Handlers -/

/-- `ping_command`. -/
def pingCommand : CommandHandlerFn := fun server fd cmd =>
  if cmd.length = 1 then some (replySimple server fd (ascii "PONG"))
  else
    match cmdBulk cmd 1 with
    | some msg => some (replyBulk server fd msg)
    | none => some (0, server)

/-- `echo_command`. -/
def echoCommand : CommandHandlerFn := fun server fd cmd =>
  match cmdBulk cmd 1 with
  | some msg => some (replyBulk server fd msg)
  | none => some (replyError server fd (ascii "ERR wrong number of arguments for 'echo' command"))

/-- `set_command`. -/
def setCommand : CommandHandlerFn := fun server fd cmd =>
  match cmdBulk cmd 1, cmdBulk cmd 2 with
  | some key, some val =>
    (zedisHtSet server.kv key val).map fun (rc, kv) =>
      let server := { server with kv := kv }
      if rc ≠ 0 then replyError server fd (ascii "ERR hash table full or value too large")
      else replySimple server fd (ascii "OK")
  | _, _ => some (replyError server fd (ascii "ERR wrong number of arguments for 'set' command"))

/-- `get_command`: the value is copied to a local buffer of `ZEDIS_HT_MAX_VALUE` bytes. -/
def getCommand : CommandHandlerFn := fun server fd cmd =>
  match cmdBulk cmd 1 with
  | some key =>
    (zedisHtGet server.kv key zedisHtMaxValue).map fun found =>
      match found with
      | none => replyNull server fd
      | some hit => replyBulk server fd (readBuffer server.stack hit.valueOut hit.valueLen)
  | none => some (replyError server fd (ascii "ERR wrong number of arguments for 'get' command"))

/-- The code of `bid_command` and of `ask_command`: their messages, and the side of the book. -/
def orderCommand (wrongNumber invalid : Bytes)
    (place : ZedisOrderBook → Int → Int → Option ZedisOrderBook) : CommandHandlerFn :=
  fun server fd cmd =>
    match cmdBulk cmd 1, cmdBulk cmd 2 with
    | some priceStr, some qtyStr =>
      match parseInt priceStr, parseI64 qtyStr with
      | some price, some qty =>
        match place server.book price qty with
        | none => some (replyError server fd (ascii "ERR price out of range"))
        | some book => some (replyInteger { server with book := book } fd qty)
      | _, _ => some (replyError server fd invalid)
    | _, _ => some (replyError server fd wrongNumber)

/-- `bid_command`. -/
def bidCommand : CommandHandlerFn :=
  orderCommand (ascii "ERR wrong number of arguments for 'bid' command")
    (ascii "ERR invalid bid arguments") zedisBookBid

/-- `ask_command`. -/
def askCommand : CommandHandlerFn :=
  orderCommand (ascii "ERR wrong number of arguments for 'ask' command")
    (ascii "ERR invalid ask arguments") zedisBookAsk

/-- The reply of `book_command`: `"*2\r\n:%" PRId64 "\r\n:%" PRId64 "\r\n"`. -/
def bookText (bid ask : Int) : Bytes :=
  ascii "*2\r\n:" ++ decimalInt bid ++ ascii "\r\n:" ++ decimalInt ask ++ crlf

/-- `book_command`. -/
def bookCommand : CommandHandlerFn := fun server fd cmd =>
  match cmdBulk cmd 1 with
  | some priceStr =>
    match parseInt priceStr with
    | some price =>
      match zedisBookLevel server.book price with
      | none => some (replyError server fd (ascii "ERR price out of range"))
      | some level => some (sendPrinted server fd 128 (bookText (wrap64 level.bidQty) (wrap64 level.askQty)))
    | none => some (replyError server fd (ascii "ERR invalid price"))
  | none => some (replyError server fd (ascii "ERR wrong number of arguments for 'book' command"))

/-- `del_command`. -/
def delCommand : CommandHandlerFn := fun server fd cmd =>
  match cmdBulk cmd 1 with
  | some key =>
    (zedisHtDel server.kv key).map fun (rc, kv) =>
      replyInteger { server with kv := kv } fd (if rc = 0 then 1 else 0)
  | none => some (replyError server fd (ascii "ERR wrong number of arguments for 'del' command"))

/-- `zadd_command`. -/
def zaddCommand : CommandHandlerFn := fun server fd cmd =>
  match cmdBulk cmd 1, cmdBulk cmd 2, cmdBulk cmd 3 with
  | some key, some scoreStr, some member =>
    match parseI64 scoreStr with
    | none => some (replyError server fd (ascii "ERR value is not a valid float"))
    | some score =>
      (zedisZsetRegScore server.zsets key member).bind fun prev =>
        (zedisZsetRegAdd server.zsets key score member).map fun (rc, zsets) =>
          let server := { server with zsets := zsets }
          if rc ≠ 0 then replyError server fd (ascii "ERR zset full or member too large")
          else replyInteger server fd (if prev.isSome then 0 else 1)
  | _, _, _ => some (replyError server fd (ascii "ERR wrong number of arguments for 'zadd' command"))

/-- `zscore_command`: the score is printed to a local buffer of 64 bytes. -/
def zscoreCommand : CommandHandlerFn := fun server fd cmd =>
  match cmdBulk cmd 1, cmdBulk cmd 2 with
  | some key, some member =>
    (zedisZsetRegScore server.zsets key member).map fun found =>
      match found with
      | none => replyNull server fd
      | some score =>
        let text := printG17 (toDouble (wrap64 score))
        if text.length > 0 then
          replyBulk server fd (readBuffer server.stack (snprintf 64 text) text.length)
        else (0, server)
  | _, _ => some (replyError server fd (ascii "ERR wrong number of arguments for 'zscore' command"))

/-- The end of `zrange_command` and of `lrange_command`, for the range that was printed to a local buffer
of 8192 bytes. -/
def sendRange (server : ZedisServer) (fd : Nat) (failed : Bytes) : Option Bytes → Int × ZedisServer
  | none => replyError server fd failed
  | some text => (0, queueWrite server ⟨fd, 8192, text, text.length, false⟩)

/-- The code of `zrange_command` and of `lrange_command`: their messages, and the range that is
printed. -/
def rangeCommand (wrongNumber failed : Bytes)
    (range : ZedisServer → Bytes → Int → Int → Nat → Option (Option Bytes)) : CommandHandlerFn :=
  fun server fd cmd =>
    match cmdBulk cmd 1, cmdBulk cmd 2, cmdBulk cmd 3 with
    | some key, some startStr, some stopStr =>
      match parseI64 startStr, parseI64 stopStr with
      | some start, some stop =>
        (range server key start stop 8192).map (sendRange server fd failed)
      | _, _ => some (replyError server fd (ascii "ERR value is not an integer or out of range"))
    | _, _, _ => some (replyError server fd wrongNumber)

/-- `zrange_command`. -/
def zrangeCommand : CommandHandlerFn :=
  rangeCommand (ascii "ERR wrong number of arguments for 'zrange' command") (ascii "ERR zrange failed")
    fun server => zedisZsetRegRange server.zsets

/-- `lpush_command`. -/
def lpushCommand : CommandHandlerFn := fun server fd cmd =>
  match cmdBulk cmd 1, cmdBulk cmd 2 with
  | some key, some val =>
    (zedisListRegLpush server.lists server.log key val).bind fun (rc, lists, log) =>
      let server := { server with lists := lists, log := log }
      if rc ≠ 0 then some (replyError server fd (ascii "ERR list full or append log full"))
      else (zedisListRegLlen server.lists key).map fun (len : Nat) => replyInteger server fd len
  | _, _ => some (replyError server fd (ascii "ERR wrong number of arguments for 'lpush' command"))

/-- `lrange_command`. -/
def lrangeCommand : CommandHandlerFn :=
  rangeCommand (ascii "ERR wrong number of arguments for 'lrange' command") (ascii "ERR lrange failed")
    fun server => zedisListRegLrange server.lists server.log

/-- `llen_command`. -/
def llenCommand : CommandHandlerFn := fun server fd cmd =>
  match cmdBulk cmd 1 with
  | some key => (zedisListRegLlen server.lists key).map fun (len : Nat) => replyInteger server fd len
  | none => some (replyError server fd (ascii "ERR wrong number of arguments for 'llen' command"))

/-- The copy of a channel name to an array of 64 bytes, without the NUL after it. -/
def channelName (channel : Bytes) : Bytes :=
  channel.take (if channel.length < 63 then channel.length else 63)

/-- The connections that a message on a channel goes to. -/
def receives (channel : Bytes) (conn : Conn) : Bool :=
  conn.subscribed && strCaseEqual (cstr conn.subscribeChannel) channel

/-- What `server_broadcast_channel` prints in front of the payload. -/
def messageHeader (channel : Bytes) (payloadLen : Nat) : Bytes :=
  ascii "*3\r\n$7\r\nmessage\r\n$" ++ decimal (cstr channel).length ++ crlf ++ cstr channel ++
    ascii "\r\n$" ++ decimal payloadLen ++ crlf

/-- `sizeof(msg)` in `server_broadcast_channel`. -/
def messageSize : Nat := zedisRingMsgMax + 256

/-- `server_broadcast_channel`. -/
def serverBroadcastChannel (server : ZedisServer) (channel payload : Bytes) : ZedisServer :=
  let header := messageHeader channel payload.length
  if header.length ≥ messageSize then server
  else if header.length + payload.length + 2 ≥ messageSize then server
  else
    let msg := header ++ payload ++ crlf
    (server.conns.filter (receives channel)).foldl
      (fun server conn => queueWrite server ⟨conn.fd, messageSize, msg, msg.length, true⟩) server

/-- `publish_command`. -/
def publishCommand : CommandHandlerFn := fun server fd cmd =>
  match cmdBulk cmd 1, cmdBulk cmd 2 with
  | some channel, some message =>
    let ch := channelName channel
    match zedisRingPublish server.ring ch message with
    | none => some (replyError server fd (ascii "ERR ring buffer full"))
    | some ring =>
      let server := { server with ring := ring }
      let receivers := (server.conns.filter (receives ch)).length
      some (replyInteger (serverBroadcastChannel server ch message) fd receivers)
  | _, _ => some (replyError server fd (ascii "ERR wrong number of arguments for 'publish' command"))

/-- The reply of `subscribe_command`: the length is that of the copied name, the name is printed up to
its first NUL. -/
def subscribeText (channel : Bytes) : Bytes :=
  ascii "*3\r\n$9\r\nsubscribe\r\n$" ++ decimal channel.length ++ crlf ++ cstr channel ++
    ascii "\r\n:1\r\n"

/-- `subscribe_command`. -/
def subscribeCommand : CommandHandlerFn := fun server fd cmd =>
  match cmdBulk cmd 1 with
  | some channel =>
    let ch := channelName channel
    let server := { server with
      conns := changeConn server.conns fd fun conn =>
        { conn with subscribeChannel := ch, subscribed := true } }
    some (sendPrinted server fd 512 (subscribeText ch))
  | none => some (replyError server fd (ascii "ERR wrong number of arguments for 'subscribe' command"))

/-- `conn_destroy`, as far as the list of connections goes. -/
def connDestroy (server : ZedisServer) (fd : Nat) : ZedisServer :=
  { server with conns := server.conns.filter fun conn => conn.fd ≠ fd }

/-- `quit_command`. -/
def quitCommand : CommandHandlerFn := fun server fd _ => some (1, connDestroy server fd)

/-! ### Dispatcher -/

/-- The commands. -/
inductive CommandName
  | ping | echo | set | get | bid | ask | book | del | zadd | zscore | zrange | lpush | lrange | llen
  | publish | subscribe | quit
deriving DecidableEq, Repr

/-- The handler of a command. -/
def CommandName.fn : CommandName → CommandHandlerFn
  | .ping => pingCommand
  | .echo => echoCommand
  | .set => setCommand
  | .get => getCommand
  | .bid => bidCommand
  | .ask => askCommand
  | .book => bookCommand
  | .del => delCommand
  | .zadd => zaddCommand
  | .zscore => zscoreCommand
  | .zrange => zrangeCommand
  | .lpush => lpushCommand
  | .lrange => lrangeCommand
  | .llen => llenCommand
  | .publish => publishCommand
  | .subscribe => subscribeCommand
  | .quit => quitCommand

/-- `command_table`. -/
def commandTable : List (Bytes × CommandName) :=
  [(ascii "PING", .ping), (ascii "ECHO", .echo), (ascii "SET", .set), (ascii "GET", .get),
    (ascii "BID", .bid), (ascii "ASK", .ask), (ascii "BOOK", .book), (ascii "DEL", .del),
    (ascii "ZADD", .zadd), (ascii "ZSCORE", .zscore), (ascii "ZRANGE", .zrange),
    (ascii "LPUSH", .lpush), (ascii "LRANGE", .lrange), (ascii "LLEN", .llen),
    (ascii "PUBLISH", .publish), (ascii "SUBSCRIBE", .subscribe), (ascii "QUIT", .quit)]

/-- `find_command`. -/
def findCommand (cmd : Bytes) : Option CommandName :=
  (commandTable.find? fun entry => strCaseEqual cmd entry.1).map Prod.snd

/-- What `server_handle_command` prints for an unknown command. -/
def unknownText (name : Bytes) : Bytes :=
  ascii "-ERR unknown command '" ++ cstr name ++ ascii "'\r\n"

/-- `server_handle_command`. -/
def serverHandleCommand (server : ZedisServer) (fd : Nat) (cmd : RespValue Bytes) :
    Option (Int × ZedisServer) :=
  match cmd with
  | .array [] => some (0, server)
  | .array elements =>
    match cmdBulk elements 0 with
    | none => some (replyError server fd (ascii "ERR invalid command format"))
    | some name =>
      match findCommand name with
      | none => some (sendPrinted server fd 512 (unknownText name))
      | some command => command.fn server fd elements
  | _ => some (replyError server fd (ascii "ERR invalid command format"))

/-! ### Runs -/

/-- The part of `zedis_config_t` that sizes the stores. -/
structure ZedisConfig where
  arenaSize : Nat
  maxKeys : Nat
  maxConnections : Nat
  ringCapacity : Nat
  maxZsets : Nat
  maxLists : Nat
  zsetMembers : Nat
  aolSize : Nat
  bookPriceMin : Int
  bookPriceMax : Int
deriving DecidableEq, Repr

/-- `zedis_arena_init`, where the region is mapped. -/
def zedisArenaInit (size : Nat) : Option ZedisArena :=
  if size = 0 then none else some ⟨alignUp size (2 * 1024 * 1024), 0⟩

/-- `zedis_create`, up to the event loop and the listening socket; `mapped` is the region of the log
and `stack` the memory below the handlers. -/
def zedisCreate (config : ZedisConfig) (mapped : Option (Nat → UInt8)) (stack : Nat → UInt8) :
    Option ZedisServer :=
  (zedisArenaInit config.arenaSize).bind fun arena =>
  (zedisSlabInit arena (config.maxConnections * 32 % sizeMod) (config.maxConnections * 8 % sizeMod)
    (config.maxConnections * 2 % sizeMod) ((config.maxConnections * 2 + 64) % sizeMod)).bind
      fun (_, arena) =>
  (zedisHtInit arena config.maxKeys).bind fun (kv, arena) =>
  (zedisBookInit arena config.bookPriceMin config.bookPriceMax).bind fun (book, arena) =>
  (zedisRingInit arena config.ringCapacity.toUInt64).bind fun (ring, arena) =>
  (zedisAolInit mapped config.aolSize).bind fun log =>
  (zedisZsetRegInit arena config.maxZsets.toUInt32 config.zsetMembers.toUInt32).bind
    fun (zsets, arena) =>
  (zedisListRegInit arena config.maxLists.toUInt32).map fun (lists, _) =>
    ⟨⟨zsets, lists, log⟩, kv, book, ring, [], [], stack⟩

/-- What happens to a server between the states of a run: a connection is accepted (with the parser,
the write buffer and the socket it gets), a parsed command is handled, a socket becomes writable, or a
connection is destroyed because its peer closed it or because of an error. -/
inductive ServerEvent
  | accept (fd : Nat) (parser : RespParser) (writeBuf : Nat → UInt8) (answers : List WriteAnswer)
  | command (fd : Nat) (cmd : RespValue Bytes)
  | writable (fd : Nat)
  | destroy (fd : Nat)

/-- There is a connection with this descriptor. -/
def connected (server : ZedisServer) (fd : Nat) : Bool := server.conns.any fun conn => conn.fd == fd

/-- The state an event leaves. A descriptor is in use by one connection at a time. -/
def serverStep (server : ZedisServer) : ServerEvent → Option ZedisServer
  | .accept fd parser writeBuf answers =>
    if connected server fd then none
    else some { server with conns := connCreate fd parser writeBuf answers :: server.conns }
  | .command fd cmd =>
    if connected server fd then (serverHandleCommand server fd cmd).map Prod.snd else none
  | .writable fd =>
    match server.conns.find? fun conn => conn.fd == fd with
    | none => none
    | some conn =>
      let (destroyed, conn) := connOnWritable conn
      let server := { server with conns := changeConn server.conns fd fun _ => conn }
      some (if destroyed then connDestroy server fd else server)
  | .destroy fd => if connected server fd then some (connDestroy server fd) else none

end Zedis.Server

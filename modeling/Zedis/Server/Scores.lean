/-
**`ZADD` and `ZSCORE`, end to end.**

A score is stored as a 64-bit integer and found again, but `zscore_command` prints it as a double with
`%.17g`. `zscore_reports_iff`: the replies to `ZSCORE` are the decimal forms of the scores that `ZADD`
stored, are read back as these scores by `parse_i64` and tell different scores apart exactly if every
score has at most 17 digits and a significand of at most 53 bits; all scores up to `2 ^ 53` do
(`shownExactly_of_le`). Above, a score may be rounded to another one or be printed with an exponent,
which `parse_i64` refuses.
-/

import Zedis.Server.Numbers
import Zedis.Server.ReadBack

namespace Zedis.Server

open Zedis.Lib Zedis.Registry Zedis.Reply Zedis.Resp Zedis.Connection

/-- A `ZADD` of the score that was answered with an integer. -/
structure Scored (server : ZedisServer) (fd : Nat) (zadd : RespValue Bytes) (key member : Bytes)
    (score : Int) (stored : ZedisServer) : Prop where
  command : commandOf zadd = some .zadd
  key : cmdBulk (elementsOf zadd) 1 = some key
  score : ∃ text, cmdBulk (elementsOf zadd) 2 = some text ∧ parseI64 text = some score
  member : cmdBulk (elementsOf zadd) 3 = some member
  ends : ∃ rc, serverHandleCommand server fd zadd = some (rc, stored)
  ok : ∃ n, (callsSince server stored).map (fun call => call.data server.stack) =
    [encode (.integer n)]

/-- **A `ZSCORE` of an idle connection**, for a member whose score was stored by an accepted `ZADD` and
has not been changed since. -/
structure ScoreRead where
  before : ZedisServer
  stored : ZedisServer
  server : ZedisServer
  writer : Nat
  reader : Nat
  zadd : RespValue Bytes
  zscore : RespValue Bytes
  key : Bytes
  member : Bytes
  score : Int
  reachBefore : Reachable before
  reach : Reachable server
  scored : Scored before writer zadd key member score stored
  unchanged : zedisZsetRegScore server.zsets key member = zedisZsetRegScore stored.zsets key member
  command : commandOf zscore = some .zscore
  sameKey : cmdBulk (elementsOf zscore) 1 = some key
  sameMember : cmdBulk (elementsOf zscore) 2 = some member
  isIdle : idle server reader = true

/-- The bulk string of the reply. -/
def ScoreRead.Replies (read : ScoreRead) (text : Bytes) : Prop :=
  Answers read.server read.reader read.zscore (encode (.bulk text))

/-- **The scores are reported**: each in its decimal form, which is read back as the score, and
different ones differently. -/
structure Reported (reads : Set ScoreRead) : Prop where
  decimal : ∀ read ∈ reads, read.Replies (decimalInt read.score)
  parsed : ∀ read ∈ reads, ∀ text, read.Replies text → parseI64 text = some read.score
  distinct : ∀ read ∈ reads, ∀ other ∈ reads, ∀ text, read.Replies text → other.Replies text →
    read.score = other.score

section ZaddZscore

variable {server stored : ZedisServer} {fd : Nat} {cmd : RespValue Bytes} {key member : Bytes}
  {score : Int}

/-- An integer is the reply of a `zedis_zset_reg_add` that returned `0`. -/
theorem Scored.stores (inv : ServerInv server) (scored : Scored server fd cmd key member score stored) :
    zedisZsetRegAdd server.zsets key score member = some (0, stored.zsets) := by
  cases cmd with
  | array elements =>
    obtain ⟨isZadd, isKey, ⟨text, isText, isScore⟩, isMember, ⟨rc, ends⟩, n, ok⟩ := scored
    change cmdBulk elements 1 = some key at isKey
    change cmdBulk elements 2 = some text at isText
    change cmdBulk elements 3 = some member at isMember
    obtain ⟨⟨zindex, zinv⟩, -⟩ := inv.registries
    obtain ⟨prev, looked⟩ := zedisZsetRegScore_returns zinv key member
    obtain ⟨_, _, _, status, zsets, added, -, -, -⟩ := zedisZsetRegAdd_cases zinv key score member
    simp only [serverHandleCommand_known fd isZadd, CommandName.fn, zaddCommand, isKey, isText,
      isMember, isScore, looked, added, Option.bind_some, Option.map_some, Option.some.injEq] at ends
    by_cases refused : status ≠ 0
    · rw [if_pos refused, replyError_eq (by decide)] at ends
      cases ends
      rw [show callsSince server _ = [_] from callsSince_queueWrite { server with zsets := zsets } _,
        List.map_singleton, encodedCall_data] at ok
      exact absurd (List.cons.inj (List.cons.inj ok).1).1 (by decide)
    · rw [if_neg refused, replyInteger_eq] at ends
      cases ends
      rw [added, Decidable.not_not.mp refused]
      rfl
  | _ => cases scored.command

theorem Scored.isInt64 (scored : Scored server fd cmd key member score stored) : IsInt64 score := by
  obtain ⟨text, -, isScore⟩ := scored.score
  rw [parseI64_eq, readInt_eq_some_iff] at isScore
  obtain ⟨m, -, rfl⟩ := isScore
  exact wrap64_range m

end ZaddZscore

section Read

variable (read : ScoreRead)

/-- A printed score is a short text. -/
theorem ScoreRead.length_printed : 0 < (printG17 (toDouble read.score)).length ∧
    (printG17 (toDouble read.score)).length ≤ 24 := by
  obtain ⟨low, high⟩ := read.scored.isInt64
  have double := natAbs_toDouble (n := read.score) (by omega)
  exact length_printG17 (by omega)

/-- **The reply is the score as a double.** -/
theorem ScoreRead.runs : serverHandleCommand read.server read.reader read.zscore = some (0,
    queueWrite read.server
      (encodedCall read.reader 4096 (.bulk (printG17 (toDouble read.score))))) := by
  obtain ⟨positive, short⟩ := read.length_printed
  obtain ⟨low, high⟩ := read.scored.isInt64
  obtain ⟨⟨zindex, zinv⟩, -⟩ := read.reachBefore.inv.registries
  have found : zedisZsetRegScore read.server.zsets read.key read.member = some (some read.score) :=
    read.unchanged.trans (zedisZsetRegAdd_score zinv (read.scored.stores read.reachBefore.inv))
  have copied : readBuffer read.server.stack (snprintf 64 (printG17 (toDouble read.score)))
      (printG17 (toDouble read.score)).length = printG17 (toDouble read.score) := by
    rw [snprintf_of_fits (by omega)]
    exact readBuffer_of_front (List.prefix_append _ _) _
  have command := read.command
  have sameKey := read.sameKey
  have sameMember := read.sameMember
  cases asks : read.zscore with
  | array elements =>
    rw [asks] at command sameKey sameMember
    change cmdBulk elements 1 = some read.key at sameKey
    change cmdBulk elements 2 = some read.member at sameMember
    simp only [serverHandleCommand_known read.reader command, CommandName.fn, zscoreCommand, sameKey,
      sameMember, found, Option.map_some, wrap64_of_range low high, if_pos positive, copied]
    rw [replyBulk_eq, if_pos (by omega)]
  | _ =>
    rw [asks] at command
    cases command

/-- **What a `ZSCORE` replies.** -/
theorem ScoreRead.replies_iff (text : Bytes) :
    read.Replies text ↔ text = printG17 (toDouble read.score) := by
  have short := read.length_printed.2
  constructor
  · rintro ⟨after, call, ends, one, -, said, -⟩
    rw [read.runs] at ends
    cases ends
    rw [callsSince_queueWrite] at one
    cases one
    rw [encodedCall_data] at said
    exact (bulk_injective (by omega) said).symm
  · rintro rfl
    exact answers_bulk read.reach.inv read.isIdle (by omega) read.runs

theorem ScoreRead.replies_decimal_iff :
    read.Replies (decimalInt read.score) ↔ ShownExactly read.score := by
  rw [read.replies_iff, eq_comm, printG17_toDouble_iff]

end Read

/-- **The scores of any `ZSCORE` commands are reported if and only if each of them has at most 17
digits and a significand of at most 53 bits.** -/
theorem zscore_reports_iff (reads : Set ScoreRead) :
    Reported reads ↔ ∀ read ∈ reads, ShownExactly read.score := by
  constructor
  · intro reported read member
    exact read.replies_decimal_iff.mp (reported.decimal read member)
  · intro shown
    have printed : ∀ read ∈ reads, ∀ text, read.Replies text → text = decimalInt read.score := by
      intro read member text replies
      rw [(read.replies_iff text).mp replies, printG17_toDouble_iff.mpr (shown read member)]
    refine ⟨fun read member => read.replies_decimal_iff.mpr (shown read member), ?_, ?_⟩
    · intro read member text replies
      obtain ⟨low, high⟩ := read.scored.isInt64
      rw [printed read member text replies, parseI64_eq, readInt_decimalInt low high]
    · intro read member other member' text replies replies'
      have same := (printed read member text replies).symm.trans
        (printed other member' text replies')
      exact decimalInt_injective same

/-! ### On a small server -/

section Sample

/-- The reply to `ZADD z text m` on a new small server, and whether the client is there and idle after
it. -/
def sampleZadd (text : Bytes) : Option (List Bytes × Bool) :=
  (sampleServer [sampleClient [.takes 9]]).bind fun server =>
    (serverHandleCommand server 5 (bulks [ascii "ZADD", ascii "z", text, ascii "m"])).map fun result =>
      ((callsSince server result.2).map fun call => call.data server.stack,
        connected server 5 && idle result.2 5)

theorem exists_scoreRead {text : Bytes} {score : Int} (isScore : parseI64 text = some score)
    (replies : sampleZadd text = some ([encode (.integer 1)], true)) :
    ∃ read : ScoreRead, read.score = score := by
  obtain ⟨server, returned, replies⟩ := Option.bind_eq_some_iff.mp replies
  obtain ⟨⟨rc, stored⟩, ends, replies⟩ := Option.map_eq_some_iff.mp replies
  obtain ⟨ok, both⟩ := Prod.mk.inj replies
  obtain ⟨isConnected, isIdle⟩ := Bool.and_eq_true_iff.mp both
  have reach := reachable_sampleServer returned
  have later := reach.command isConnected ends
  have isZadd : commandOf (bulks [ascii "ZADD", ascii "z", text, ascii "m"]) = some .zadd :=
    show findCommand (ascii "ZADD") = some .zadd by decide
  have isZscore : commandOf (bulks [ascii "ZSCORE", ascii "z", ascii "m"]) = some .zscore := by decide
  exact ⟨⟨server, stored, stored, 5, 5, _, _, ascii "z", ascii "m", score, reach, later,
    ⟨isZadd, rfl, ⟨text, rfl, isScore⟩, rfl, ⟨rc, ends⟩, 1, ok⟩, rfl, isZscore, rfl, rfl, isIdle⟩, rfl⟩

/-- **A score of `2 ^ 53 + 1` is reported as `2 ^ 53`**, as that score itself is, and one of `10 ^ 17`
with an exponent, which `parse_i64` refuses. -/
theorem rounded_score_reported :
    (∃ read other : ScoreRead, read.score = 9007199254740993 ∧ other.score = 9007199254740992 ∧
      read.Replies (ascii "9007199254740992") ∧ other.Replies (ascii "9007199254740992") ∧
      ¬ read.Replies (decimalInt read.score)) ∧
    ∃ read : ScoreRead, read.score = 100000000000000000 ∧ read.Replies (ascii "1e+17") ∧
      parseI64 (ascii "1e+17") = none := by
  obtain ⟨read, isScore⟩ := exists_scoreRead
    (show parseI64 (ascii "9007199254740993") = some 9007199254740993 by decide +kernel)
    (by decide +kernel)
  obtain ⟨other, isOther⟩ := exists_scoreRead
    (show parseI64 (ascii "9007199254740992") = some 9007199254740992 by decide +kernel)
    (by decide +kernel)
  obtain ⟨long, isLong⟩ := exists_scoreRead
    (show parseI64 (ascii "100000000000000000") = some 100000000000000000 by decide +kernel)
    (by decide +kernel)
  refine ⟨⟨read, other, isScore, isOther, ?_, ?_, ?_⟩, long, isLong, ?_, by decide +kernel⟩
  · rw [read.replies_iff, isScore]
    decide +kernel
  · rw [other.replies_iff, isOther]
    decide +kernel
  · rw [read.replies_decimal_iff, isScore]
    decide +kernel
  · rw [long.replies_iff, isLong]
    decide +kernel

/-- A score of `-2 ^ 53` is reported. -/
theorem zscore_reports_iff_negative : ∃ read : ScoreRead, read.score = -9007199254740992 ∧
    Reported {read} := by
  obtain ⟨read, isScore⟩ := exists_scoreRead
    (show parseI64 (ascii "-9007199254740992") = some (-9007199254740992) by decide +kernel)
    (by decide +kernel)
  refine ⟨read, isScore, (zscore_reports_iff {read}).mpr fun _ same => ?_⟩
  rw [Set.mem_singleton_iff.mp same, isScore]
  exact shownExactly_of_le (by decide)

end Sample

end Zedis.Server

/-
**Byte strings that are one value.**

`Framed data`: a parser that is fed `data` returns one value of the protocol and has read all of it.
Every encoding is framed; a strict prefix of an encoding is not, and neither is a line with a line end
in it.
-/

import Zedis.Resp.Encode

namespace Zedis.Resp

open Zedis.Lib

/-- **The bytes are one value**: they start with a type byte, and `resp_parser_next` fed with them
returns `RESP_OK` and leaves nothing. -/
def Framed (data : Bytes) : Prop :=
  (∃ typeByte rest, data = typeByte :: rest ∧ isTypeByte typeByte = true) ∧
    ∃ p fed parsed after, p.Valid ∧ unread p = [] ∧ respParserFeed p data = some fed ∧
      respParserNext fed = some (.ok parsed, after) ∧ unread after = []

section Framed

variable {data : Bytes}

theorem Framed.decode (framed : Framed data) : ∃ value, decode data = some (.ok (value, [])) := by
  obtain ⟨-, p, fed, parsed, after, valid, empty, feeds, next, left⟩ := framed
  obtain ⟨fedValid, text⟩ := respParserFeed_spec valid feeds
  obtain ⟨verdict, after', next', -, decoded, -⟩ := respParserNext_spec fedValid
  rw [next] at next'
  cases next'
  rw [text, empty, List.nil_append, left] at decoded
  exact ⟨_, decoded⟩

theorem framed_of_decode {typeByte : UInt8} {rest : Bytes} (isData : data = typeByte :: rest)
    (isType : isTypeByte typeByte = true) (small : data.length < 2 ^ 63 - 1) {value : RespValue Bytes}
    (decoded : Resp.decode data = some (.ok (value, []))) : Framed data := by
  refine ⟨⟨typeByte, rest, isData, isType⟩, ?_⟩
  let p : RespParser := ⟨fun _ => 0, data.length, 0, 0⟩
  have valid : p.Valid := ⟨Nat.le_refl 0, Nat.zero_le _, small⟩
  have nonempty : ¬ data.length = 0 := by
    rw [isData]
    exact Nat.succ_ne_zero _
  have feeds : respParserFeed p data = some (appendBytes p data) := by
    rw [respParserFeed, if_neg nonempty, if_pos (Nat.zero_add _).le]
  obtain ⟨fedValid, text⟩ := respParserFeed_spec valid feeds
  obtain ⟨verdict, after, next, -, said, -⟩ := respParserNext_spec fedValid
  rw [text, show unread p = [] from rfl, List.nil_append, decoded] at said
  cases verdict with
  | needMore => cases said
  | error => cases said
  | ok parsed =>
    obtain ⟨-, left⟩ := Prod.mk.inj (Verdict.ok.inj (Option.some.inj said))
    exact ⟨p, _, parsed, after, valid, rfl, feeds, next, left.symm⟩

/-- An encoding starts with its type byte. -/
theorem encode_typeByte (value : RespValue Bytes) :
    ∃ typeByte rest, encode value = typeByte :: rest ∧ isTypeByte typeByte = true := by
  cases value with
  | simple text => exact ⟨_, _, rfl, rfl⟩
  | error text => exact ⟨_, _, rfl, rfl⟩
  | integer n => exact ⟨_, _, rfl, rfl⟩
  | bulk data => exact ⟨_, _, rfl, rfl⟩
  | null => exact ⟨_, _, rfl, rfl⟩
  | array elements => exact ⟨_, _, rfl, rfl⟩

/-- **An encoding is framed.** -/
theorem framed_encode (value : RespValue Bytes) (encodable : Encodable value)
    (small : (encode value).length < 2 ^ 63 - 1) : Framed (encode value) := by
  obtain ⟨typeByte, rest, same, isType⟩ := encode_typeByte value
  have decoded := decode_encode encodable (sized_of_length (by omega)) []
  rw [List.append_nil] at decoded
  exact framed_of_decode same isType small decoded

/-- **A strict prefix of an encoding is not framed.** -/
theorem not_framed_front {value : RespValue Bytes} (encodable : Encodable value)
    (small : (encode value).length < 2 ^ 63) {rest : Bytes} (more : rest ≠ [])
    (whole : encode value = data ++ rest) : ¬ Framed data := by
  intro framed
  obtain ⟨other, decoded⟩ := framed.decode
  have all := decode_encode encodable (sized_of_length small) []
  rw [List.append_nil, whole] at all
  cases decode_settled.strict_front all more decoded

/-- A framed error is one line. -/
theorem Framed.error_line {u : Bytes} (framed : Framed (45 :: u)) :
    ∃ line, cut crlf u = some (line, []) := by
  obtain ⟨value, decoded⟩ := framed.decode
  rw [Resp.decode, decodeAt, if_neg (by decide)] at decoded
  cases found : cut crlf u with
  | none =>
    rw [found] at decoded
    cases decoded
  | some parts =>
    rw [found] at decoded
    obtain ⟨-, left⟩ := Prod.mk.inj (Verdict.ok.inj (Option.some.inj decoded))
    exact ⟨parts.1, by rw [← left]⟩

/-- **A line is framed exactly if no line end is inside it.** -/
theorem framed_line_iff {line : Bytes} (small : line.length + 3 < 2 ^ 63 - 1) :
    Framed (45 :: (line ++ crlf)) ↔ ¬ crlf <:+: line := by
  constructor
  · intro framed inside
    obtain ⟨whole, only⟩ := framed.error_line
    obtain ⟨first, rest, found⟩ := cut_of_infix (show crlf ≠ [] by decide) inside
    rw [cut_append crlf found] at only
    exact absurd (Prod.mk.inj (Option.some.inj only)).2 (List.append_ne_nil_of_right_ne_nil _ (by decide))
  · intro plain
    refine framed_encode (.error line) plain ?_
    rw [encode, List.length_cons, List.length_append]
    exact small

end Framed

end Zedis.Resp

/-
**Inline commands.**

A line that does not start with a type byte is split into its words. `inline_tokenises`: whatever mix of
spaces and tabs stands between them, before them and behind them, `resp__parse_inline` accepts the line,
stops right behind its LF, and its nodes are the words; so the handlers read the same command as from the
RESP array of the words.
-/

import Zedis.Resp.Refined

namespace Zedis.Resp

open Zedis.Lib

/-- The ends of a line. -/
def IsEol (eol : Bytes) : Prop := eol = [10] ∨ eol = crlf

/-- The maximal runs of bytes other than space and tab in a line, without the `\r` at its end. -/
def lineTokens (line eol : Bytes) : List Bytes := words isBlank (chomp (line ++ eol.dropLast))

/-- The command with some arguments. -/
def argumentArray (arguments : List Bytes) : RespValue Bytes := .array (arguments.map .bulk)

/-! ### Strings -/

section Strings

variable {line eol rest : Bytes}

/-- **A line is cut at its LF.** -/
theorem cut_lf (rest : Bytes) : ∀ {line : Bytes}, 10 ∉ line →
    cut [10] (line ++ 10 :: rest) = some (line, rest)
  | [], _ => rfl
  | b :: line, plain => by
    obtain ⟨notHere, notLater⟩ := List.ne_and_not_mem_of_not_mem_cons plain
    have differs : ¬ [10].isPrefixOf (b :: (line ++ 10 :: rest)) := by
      rw [List.isPrefixOf_iff_prefix]
      rintro ⟨after, same⟩
      exact notHere (List.cons.inj same).1
    rw [List.cons_append, cut, if_neg differs, cut_lf rest notLater]
    rfl

theorem decodeInline_line (noLf : 10 ∉ line) (ends : IsEol eol) (rest : Bytes) :
    decodeInline (line ++ eol ++ rest) = .ok (argumentArray (lineTokens line eol), rest) := by
  have found : cut [10] (line ++ eol ++ rest) = some (line ++ eol.dropLast, rest) := by
    rcases ends with rfl | rfl
    · rw [List.append_assoc, show ([10] : Bytes).dropLast = [] from rfl, List.append_nil]
      exact cut_lf rest noLf
    · have plain : 10 ∉ line ++ [13] := by
        rw [List.mem_append]
        rintro (inLine | isCr)
        · exact noLf inLine
        · exact absurd isCr (by decide)
      have split : line ++ crlf ++ rest = (line ++ [13]) ++ 10 :: rest := by
        rw [List.append_assoc, List.append_assoc]
        rfl
      rw [split]
      exact cut_lf rest plain
  rw [decodeInline, found]
  rfl

theorem decode_of_not_type {b : UInt8} (notType : isTypeByte b = false) (u : Bytes) :
    decode (b :: u) = some (decodeInline (b :: u)) := if_pos notType

/-- A line that does not start with a type byte is an inline command. -/
theorem decode_line (noLf : 10 ∉ line) (notType : ∀ b ∈ line.head?, isTypeByte b = false)
    (ends : IsEol eol) (rest : Bytes) :
    decode (line ++ eol ++ rest) = some (.ok (argumentArray (lineTokens line eol), rest)) := by
  have inline : decode (line ++ eol ++ rest) = some (decodeInline (line ++ eol ++ rest)) := by
    cases line with
    | nil =>
      rcases ends with rfl | rfl
      · exact decode_of_not_type (show isTypeByte 10 = false by decide) rest
      · exact decode_of_not_type (show isTypeByte 13 = false by decide) (10 :: rest)
    | cons b line => exact decode_of_not_type (notType b rfl) (line ++ eol ++ rest)
  rw [inline, decodeInline_line noLf ends]

/-- A command is encoded as it is. -/
theorem encodable_arguments (arguments : List Bytes) : Encodable (argumentArray arguments) := by
  refine encodableAll_of_each fun value member => ?_
  obtain ⟨data, -, rfl⟩ := List.mem_map.mp member
  trivial

end Strings

/-! ### The parser -/

section Parser

variable {malloc : Nat → Bool} {p : RespParser} {pool : NodePool} {free : List Nat}

/-- **What `decode` reads off the unread bytes is what the handlers read.** -/
theorem nextNodes_decoded (valid : p.Valid) (start : FreeNodes pool free)
    (grants : ∀ request, malloc request = true) {value : RespValue Bytes} {rest : Bytes}
    (decoded : decode (unread p) = some (.ok (value, rest))) : ∃ out after pool',
      nextNodes malloc p pool = some (.ok out, after, pool') ∧
      readValue pool' after.buf out = some value ∧ unread after = rest := by
  obtain ⟨verdict, after, told, -, said, -⟩ := respParserNext_spec valid
  rw [decoded] at said
  obtain ⟨mine, last, pool', runs, follows, isAfter⟩ := nextNodes_follows malloc start told
  obtain rfl := isAfter (Or.inl (not_refused grants pool pool'))
  cases follows with
  | needMore => cases said
  | error => cases said
  | refused _ _ refused => exact absurd refused (not_refused grants pool pool')
  | @ok _ nodes out parsed owns held =>
    obtain ⟨same, left⟩ := Prod.mk.inj (Verdict.ok.inj (Option.some.inj said))
    refine ⟨out, last, pool', runs, ?_, left.symm⟩
    rw [readValue_of_valueAt last.buf owns.length_used held, ← same]

/-- `resp__parse_inline` on a line. -/
theorem parseInlineNodes_line (start : FreeNodes pool free) (grants : ∀ request, malloc request = true)
    {pos : Nat} (inside : pos ≤ p.wPos) {line eol rest : Bytes} (noLf : 10 ∉ line) (ends : IsEol eol)
    (text : window p pos = line ++ eol ++ rest) : ∃ out pool',
      parseInlineNodes malloc p pos pool = some (.ok (out, pos + (line ++ eol).length), pool') ∧
      readValue pool' p.buf out = some (argumentArray (lineTokens line eol)) := by
  obtain ⟨decoded, bounded⟩ := respParseInline_eq inside
  rw [text, decodeInline_line noLf ends] at decoded
  cases told : respParseInline p pos with
  | none =>
    rw [told] at decoded
    cases decoded
  | some verdict =>
    rw [told] at decoded bounded
    cases verdict with
    | needMore => cases decoded
    | error => cases decoded
    | ok result =>
      obtain ⟨value, next⟩ := result
      obtain ⟨same, left⟩ := Prod.mk.inj (Verdict.ok.inj (Option.some.inj decoded))
      -- the length of what is left tells the position
      have behind := bounded value next rfl
      have lengths := congrArg List.length text
      have lengths' := congrArg List.length left
      rw [window, length_segment, List.length_append] at lengths
      rw [window, length_segment] at lengths'
      have isNext : next = pos + (line ++ eol).length := by omega
      obtain ⟨said, pool', runs, follows⟩ := @parseInlineNodes_follows malloc p pool free start pos _ told
      cases follows with
      | refused _ _ refused => exact absurd refused (not_refused grants pool pool')
      | @ok _ nodes mine _ owns held =>
        obtain ⟨out, next'⟩ := mine
        obtain ⟨samePos, held⟩ := held
        refine ⟨out, pool', ?_, ?_⟩
        · rw [runs, ← isNext]
          exact congrArg (fun next => some (Verdict.ok (out, next), pool')) samePos
        · rw [readValue_of_valueAt p.buf owns.length_used held, same]

end Parser

/-- **Inline commands tokenise exactly.** -/
theorem inline_tokenises {malloc : Nat → Bool} (grants : ∀ request, malloc request = true)
    {line eol rest : Bytes} (noLf : 10 ∉ line) (notType : ∀ b ∈ line.head?, isTypeByte b = false)
    (ends : IsEol eol) :
    (∀ p pool free pos, FreeNodes pool free → pos ≤ p.wPos → window p pos = line ++ eol ++ rest →
      ∃ out pool', parseInlineNodes malloc p pos pool =
          some (.ok (out, pos + (line ++ eol).length), pool') ∧
        readValue pool' p.buf out = some (argumentArray (lineTokens line eol))) ∧
    ∀ p q pool pool' free free' rest', p.Valid → q.Valid → FreeNodes pool free → FreeNodes pool' free' →
      unread p = line ++ eol ++ rest →
      unread q = encode (argumentArray (lineTokens line eol)) ++ rest' →
      ∃ out after nodes out' after' nodes' command,
        nextNodes malloc p pool = some (.ok out, after, nodes) ∧
        nextNodes malloc q pool' = some (.ok out', after', nodes') ∧
        readValue nodes after.buf out = some command ∧
        readValue nodes' after'.buf out' = some command ∧
        unread after = rest ∧ unread after' = rest' := by
  refine ⟨fun p pool free pos start inside text => parseInlineNodes_line start grants inside noLf ends text,
    ?_⟩
  intro p q pool pool' free free' rest' valid valid' start start' text text'
  have decoded := decode_line noLf notType ends rest
  rw [← text] at decoded
  have held : (encode (argumentArray (lineTokens line eol))).length < 2 ^ 63 := by
    have all := length_unread q
    have bound := valid'.written.trans_lt valid'.granted
    rw [text', List.length_append] at all
    omega
  have decoded' := decode_encode (encodable_arguments (lineTokens line eol)) (sized_of_length held) rest'
  rw [← text'] at decoded'
  obtain ⟨out, after, nodes, runs, read, left⟩ := nextNodes_decoded valid start grants decoded
  obtain ⟨out', after', nodes', runs', read', left'⟩ := nextNodes_decoded valid' start' grants decoded'
  exact ⟨out, after, nodes, out', after', nodes', _, runs, runs', read, read', left, left'⟩

/-- A parser with the bytes in its buffer. -/
def holding (bytes : Bytes) : RespParser := appendBytes ⟨fun _ => 0, 64, 0, 0⟩ bytes

/-- Blanks before, between and behind two words, and a carriage return inside. -/
theorem inline_tokenises_blanks :
    lineTokens (ascii "  SET\t \ra ") crlf = [ascii "SET", ascii "\ra"] ∧
      ∃ out pool', parseInlineNodes (fun _ => true) (holding (ascii "  SET\t \ra \r\n+")) 0
          ⟨fun _ => zeroNode, none, 0⟩ = some (.ok (out, 12), pool') ∧
        readValue pool' (holding (ascii "  SET\t \ra \r\n+")).buf out =
          some (argumentArray (lineTokens (ascii "  SET\t \ra ") crlf)) := by
  have tokens : lineTokens (ascii "  SET\t \ra ") crlf = [ascii "SET", ascii "\ra"] := by
    decide +kernel
  have noLf : 10 ∉ ascii "  SET\t \ra " := by decide +kernel
  have notType : ∀ b ∈ (ascii "  SET\t \ra ").head?, isTypeByte b = false := by
    decide +kernel
  have text : window (holding (ascii "  SET\t \ra \r\n+")) 0 =
      ascii "  SET\t \ra " ++ crlf ++ ascii "+" := by decide +kernel
  exact ⟨tokens, (inline_tokenises (fun _ => rfl) noLf notType (Or.inr rfl)).1 _ _ _ 0
    (freeNodes_new _) (Nat.zero_le _) text⟩

end Zedis.Resp

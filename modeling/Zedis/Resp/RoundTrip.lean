/-
**Formatters and parser are inverse.**

`RoundTrips cap value reply`: the formatter has written inside its buffer, has returned `-1` exactly if
the encoding of `value` and a NUL do not fit, and otherwise the bytes it announces are parsed as `value`
and consumed to the last. The fit checks of the five formatters differ in form and mean the same bound
(`Prints`), so all five round-trip (`formatters_round_trip`).
-/

import Zedis.Resp.Printed

namespace Zedis.Resp

open Zedis.Lib

/-- **The formatter and the parser are inverse at this value.** -/
structure RoundTrips (cap : Nat) (value : RespValue Bytes) (reply : Formatted) : Prop where
  inside : reply.written.length ≤ cap
  refused_iff : reply.ret = none ↔ cap < (encode value).length + 1
  parsed : ∀ n, reply.ret = some n → ∀ p rest, p.Valid → unread p = reply.written.take n ++ rest →
    ∃ parsed after, respParserNext p = some (.ok parsed, after) ∧ parsed.contents after.buf = value ∧
      (unread p).length = n + (unread after).length ∧ unread after = rest

section Inside

/-- `snprintf` writes at most `cap` bytes. -/
theorem length_snprintf_le (cap : Nat) (text : Bytes) : (snprintf cap text).length ≤ cap := by
  unfold snprintf
  split
  · exact Nat.zero_le _
  · rw [List.length_append, List.length_take, List.length_singleton]
    omega

theorem length_appendStr {cap : Nat} {used s after : Bytes} (appended : appendStr cap used s = some after) :
    after.length < cap := by
  obtain ⟨room, same⟩ := Option.ite_none_left_eq_some.mp appended
  rw [← Option.some.inj same, List.length_append]
  exact Nat.not_le.mp room

theorem formatLine_inside (typeByte : UInt8) (cap : Nat) (str : Bytes) :
    (formatLine typeByte cap str).written.length ≤ cap := by
  unfold formatLine
  split
  · exact Nat.zero_le _
  · rename_i first
    have one := length_appendStr first
    split
    · exact one.le
    · rename_i second
      have two := length_appendStr second
      split
      · exact two.le
      · rename_i third
        rw [List.length_append, List.length_singleton]
        exact length_appendStr third

theorem respFormatInteger_inside (cap : Nat) (n : Int) : (respFormatInteger cap n).written.length ≤ cap :=
  length_snprintf_le cap _

theorem respFormatBulk_inside (cap : Nat) (data : Bytes) :
    (respFormatBulk cap data).written.length ≤ cap := by
  unfold respFormatBulk
  dsimp only
  split
  · exact length_snprintf_le cap _
  · split
    · exact length_snprintf_le cap _
    · rename_i fits
      rw [List.length_append, List.length_append, List.length_append, List.length_singleton,
        show crlf.length = 2 from rfl]
      omega

theorem respFormatNull_inside (cap : Nat) : (respFormatNull cap).written.length ≤ cap := by
  unfold respFormatNull
  dsimp only
  split
  · exact Nat.zero_le _
  · rename_i fits
    rw [List.length_append, List.length_singleton]
    exact Nat.not_le.mp fits

end Inside

/-- A formatter that prints encodings round-trips. -/
theorem Prints.roundTrips {cap : Nat} {value : RespValue Bytes} {reply : Formatted}
    (prints : Prints cap value reply) (inside : reply.written.length ≤ cap) (encodable : Encodable value) :
    RoundTrips cap value reply := by
  refine ⟨inside, ?_, ?_⟩
  · constructor
    · intro refused
      by_contra fits
      rw [prints.fits (by omega)] at refused
      cases refused
    · exact fun full => prints.refuses (Nat.lt_succ_iff.mp full)
  · intro n returned p rest valid text
    have fits : (encode value).length < cap := by
      by_contra full
      rw [prints.refuses (Nat.not_lt.mp full)] at returned
      cases returned
    rw [prints.fits fits] at returned text
    obtain rfl := Option.some.inj returned
    rw [List.take_left] at text
    obtain ⟨parsed, after, next, same, left⟩ := respParserNext_read valid encodable text
    exact ⟨parsed, after, next, same, by rw [text, left, List.length_append], left⟩

/-- **Formatters and parser are inverse**: for integers, bulk strings, texts and null. -/
theorem formatters_round_trip (cap : Nat) :
    (∀ n : Int, -2 ^ 63 ≤ n → n < 2 ^ 63 → RoundTrips cap (.integer n) (respFormatInteger cap n)) ∧
      (∀ data, RoundTrips cap (.bulk data) (respFormatBulk cap data)) ∧
      (∀ text, 0 ∉ text → ¬ crlf <:+: text →
        RoundTrips cap (.simple text) (respFormatSimple cap text) ∧
          RoundTrips cap (.error text) (respFormatError cap text)) ∧
      RoundTrips cap .null (respFormatNull cap) := by
  refine ⟨fun n low high => ?_, fun data => ?_, fun text noNul plain => ⟨?_, ?_⟩, ?_⟩
  · exact (respFormatInteger_prints cap n).roundTrips (respFormatInteger_inside cap n) ⟨low, high⟩
  · exact (respFormatBulk_prints cap data).roundTrips (respFormatBulk_inside cap data) trivial
  · have prints := respFormatSimple_prints cap text
    rw [cstr_eq_self noNul] at prints
    exact prints.roundTrips (formatLine_inside 43 cap text) plain
  · have prints := respFormatError_prints cap text
    rw [cstr_eq_self noNul] at prints
    exact prints.roundTrips (formatLine_inside 45 cap text) plain
  · exact (respFormatNull_prints cap).roundTrips (respFormatNull_inside cap) trivial

/-- `INT64_MIN` needs 24 bytes with its NUL. -/
theorem formatters_round_trip_min : (respFormatInteger 23 (-2 ^ 63)).ret = none ∧
    (respFormatInteger 24 (-2 ^ 63)).ret = some 23 ∧
    RoundTrips 24 (.integer (-2 ^ 63)) (respFormatInteger 24 (-2 ^ 63)) :=
  ⟨by decide +kernel, by decide +kernel, (formatters_round_trip 24).1 (-2 ^ 63) (by decide) (by decide)⟩

end Zedis.Resp

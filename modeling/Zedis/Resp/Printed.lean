/-
**The formatters print encodings.**

`Prints cap value reply`: a formatter prints the encoding of `value` and a NUL where both fit in `cap`
bytes, and otherwise returns `-1`. All five formatters do, for the value they stand for.
-/

import Zedis.Resp.Encode
import Zedis.Resp.Format

namespace Zedis.Resp

open Zedis.Lib

/-- The reply is the encoding of the value and a NUL, if they fit. -/
structure Prints (cap : Nat) (value : RespValue Bytes) (reply : Formatted) : Prop where
  fits : (encode value).length < cap → reply = ⟨encode value ++ [0], some (encode value).length⟩
  refuses : cap ≤ (encode value).length → reply.ret = none

section Lengths

theorem length_decimalInt {n : Int} (low : -2 ^ 63 ≤ n) (high : n < 2 ^ 63) :
    (decimalInt n).length ≤ 20 := by
  have digits := (decimal_spec n.natAbs).short 18 (by omega)
  unfold decimalInt
  split
  · rw [List.length_cons]
    omega
  · omega

theorem length_encode_integer {n : Int} (low : -2 ^ 63 ≤ n) (high : n < 2 ^ 63) :
    (encode (.integer n)).length ≤ 23 := by
  have digits := length_decimalInt low high
  simp only [encode, List.length_cons, List.length_append, show crlf.length = 2 from rfl]
  omega

theorem length_encode_bulk (data : Bytes) :
    (encode (.bulk data)).length = (decimal data.length).length + data.length + 5 := by
  simp only [encode, List.length_cons, List.length_append, show crlf.length = 2 from rfl]
  omega

theorem length_encode_line (typeByte : UInt8) (text : Bytes) :
    (typeByte :: (text ++ crlf)).length = text.length + 3 := by
  rw [List.length_cons, List.length_append]
  rfl

end Lengths

theorem snprintf_of_fits {cap : Nat} {text : Bytes} (fits : text.length < cap) :
    snprintf cap text = text ++ [0] := by
  rw [snprintf, if_neg (by omega), List.take_of_length_le (by omega)]

theorem formatLine_eq (typeByte : UInt8) (cap : Nat) (str : Bytes) :
    (formatLine typeByte cap str).ret =
        (if (cstr str).length + 3 < cap then some ((cstr str).length + 3) else none) ∧
      ((cstr str).length + 3 < cap →
        (formatLine typeByte cap str).written = typeByte :: (cstr str ++ crlf) ++ [0]) := by
  unfold formatLine
  by_cases one : 1 < cap
  · have first : appendStr cap [] [typeByte] = some [typeByte] := if_neg (Nat.not_le.mpr one)
    simp only [first]
    by_cases two : (cstr str).length + 1 < cap
    · have second : appendStr cap [typeByte] (cstr str) = some (typeByte :: cstr str) :=
        if_neg (by rw [List.length_singleton]; omega)
      simp only [second]
      by_cases three : (cstr str).length + 3 < cap
      · have third : appendStr cap (typeByte :: cstr str) crlf = some (typeByte :: (cstr str ++ crlf)) :=
          if_neg (by rw [List.length_cons, show crlf.length = 2 from rfl]; omega)
        simp only [third, if_pos three, length_encode_line]
        exact ⟨trivial, fun _ => trivial⟩
      · have third : appendStr cap (typeByte :: cstr str) crlf = none :=
          if_pos (by rw [List.length_cons, show crlf.length = 2 from rfl]; omega)
        simp only [third, if_neg three]
        exact ⟨trivial, fun room => absurd room three⟩
    · have second : appendStr cap [typeByte] (cstr str) = none :=
        if_pos (by rw [List.length_singleton]; omega)
      simp only [second, if_neg (show ¬ (cstr str).length + 3 < cap by omega)]
      exact ⟨trivial, fun room => absurd room (by omega)⟩
  · have first : appendStr cap [] [typeByte] = none := if_pos (Nat.not_lt.mp one)
    simp only [first, if_neg (show ¬ (cstr str).length + 3 < cap by omega)]
    exact ⟨trivial, fun room => absurd room (by omega)⟩

/-- **A line is printed.** -/
theorem formatLine_prints {typeByte : UInt8} {cap : Nat} {str : Bytes} {value : RespValue Bytes}
    (isLine : encode value = typeByte :: (cstr str ++ crlf)) :
    Prints cap value (formatLine typeByte cap str) := by
  obtain ⟨ret, written⟩ := formatLine_eq typeByte cap str
  have length : (encode value).length = (cstr str).length + 3 := by
    rw [isLine, length_encode_line]
  refine ⟨fun room => ?_, fun full => ?_⟩
  · rw [length] at room
    rw [if_pos room] at ret
    rw [length, isLine, ← ret, ← written room]
  · rw [length] at full
    rw [ret, if_neg (Nat.not_lt.mpr full)]

theorem respFormatSimple_prints (cap : Nat) (str : Bytes) :
    Prints cap (.simple (cstr str)) (respFormatSimple cap str) :=
  formatLine_prints rfl

theorem respFormatError_prints (cap : Nat) (msg : Bytes) :
    Prints cap (.error (cstr msg)) (respFormatError cap msg) :=
  formatLine_prints rfl

theorem respFormatInteger_prints (cap : Nat) (n : Int) :
    Prints cap (.integer n) (respFormatInteger cap n) := by
  have text : 58 :: (decimalInt n ++ crlf) = encode (.integer n) := by rw [encode]
  have positive := length_encode_pos (.integer n)
  unfold respFormatInteger
  refine ⟨fun room => ?_, fun full => ?_⟩
  · simp only [text]
    rw [if_pos ⟨positive, room⟩, snprintf_of_fits room]
  · simp only [text]
    exact if_neg fun both => absurd both.2 (Nat.not_lt.mpr full)

theorem respFormatBulk_prints (cap : Nat) (data : Bytes) :
    Prints cap (.bulk data) (respFormatBulk cap data) := by
  have header : (36 :: (decimal data.length ++ crlf)).length = (decimal data.length).length + 3 :=
    length_encode_line 36 _
  have text : 36 :: (decimal data.length ++ crlf) ++ data ++ crlf = encode (.bulk data) := by
    rw [encode, List.cons_append, List.cons_append, List.append_assoc]
  unfold respFormatBulk
  refine ⟨fun room => ?_, fun full => ?_⟩
  · rw [length_encode_bulk] at room
    simp only [header, text]
    rw [if_neg (by omega), if_neg (by omega)]
  · rw [length_encode_bulk] at full
    simp only [header]
    split
    · rfl
    · rw [if_pos (by omega)]

theorem respFormatNull_prints (cap : Nat) : Prints cap .null (respFormatNull cap) :=
  ⟨fun room => if_neg (Nat.not_le.mpr room), fun full => by
    have tooLong : (ascii "$-1\r\n").length ≥ cap := full
    rw [respFormatNull, if_pos tooLong]⟩

end Zedis.Resp

/-
**The parser reads every encoded value back.**

`encode` is the standard encoding of a RESP value. A simple string or an error is a line, so it must
not contain the line end (`Encodable`); a bulk string is taken by its length and may. A line is cut at
its first end (`cut_line`) and a printed number is read back (`readInt_decimalInt`); an array is read
element by element. Since `decode` is settled, no strict prefix of an encoding is accepted or rejected
(`Settled.strict_front`).
-/

import Zedis.Lib.Decimal
import Zedis.Resp.Chunks

namespace Zedis.Resp

open Zedis.Lib

mutual

/-- **The standard encoding.** -/
def encode : RespValue Bytes → Bytes
  | .simple text => 43 :: (text ++ crlf)
  | .error text => 45 :: (text ++ crlf)
  | .integer value => 58 :: (decimalInt value ++ crlf)
  | .bulk data => 36 :: (decimal data.length ++ crlf ++ (data ++ crlf))
  | .null => 36 :: (decimalInt (-1) ++ crlf)
  | .array elements => 42 :: (decimal elements.length ++ crlf ++ encodeAll elements)

def encodeAll : List (RespValue Bytes) → Bytes
  | [] => []
  | value :: values => encode value ++ encodeAll values

end

mutual

/-- The values of the format: lines without a line end in them, and 64-bit integers. -/
def Encodable : RespValue Bytes → Prop
  | .simple text => ¬ crlf <:+: text
  | .error text => ¬ crlf <:+: text
  | .integer value => -2 ^ 63 ≤ value ∧ value < 2 ^ 63
  | .bulk _ => True
  | .null => True
  | .array elements => EncodableAll elements

def EncodableAll : List (RespValue Bytes) → Prop
  | [] => True
  | value :: values => Encodable value ∧ EncodableAll values

end

mutual

/-- The lengths and counts of the format are 64-bit integers as well. -/
def Sized : RespValue Bytes → Prop
  | .bulk data => data.length < 2 ^ 63
  | .array elements => elements.length < 2 ^ 63 ∧ SizedAll elements
  | _ => True

def SizedAll : List (RespValue Bytes) → Prop
  | [] => True
  | value :: values => Sized value ∧ SizedAll values

end

/-! ### Lines -/

section Lines

/-- **A line is cut at its end.** -/
theorem cut_line (rest : Bytes) : ∀ {text : Bytes}, ¬ crlf <:+: text →
    cut crlf (text ++ crlf ++ rest) = some (text, rest)
  | [], _ => rfl
  | b :: text, plain => by
    have notHere : crlf.isPrefixOf (b :: (text ++ crlf ++ rest)) = false := by
      rw [Bool.eq_false_iff, ne_eq, List.isPrefixOf_iff_prefix]
      rintro ⟨after, same⟩
      obtain ⟨isCr, next⟩ := List.cons.inj same
      cases text with
      | nil => cases next
      | cons c text =>
        obtain ⟨isLf, -⟩ := List.cons.inj next
        refine plain ⟨[], text, ?_⟩
        rw [← isCr, ← isLf]
        rfl
    have later := cut_line rest fun inside => plain (inside.trans (List.suffix_cons b text).isInfix)
    rw [List.cons_append, List.cons_append, cut, if_neg (by rw [notHere]; decide), later]
    rfl

/-- Digits and a sign make a line. -/
theorem plain_of_digits {text : Bytes} (digits : ∀ b ∈ text, b = 45 ∨ isDigit b = true) :
    ¬ crlf <:+: text := by
  intro inside
  rcases digits 13 (inside.subset (by decide)) with sign | digit
  · cases sign
  · cases digit

theorem plain_decimal (n : Nat) : ¬ crlf <:+: decimal n :=
  plain_of_digits fun b member => Or.inr ((decimal_spec n).digits b member)

theorem plain_decimalInt (n : Int) : ¬ crlf <:+: decimalInt n := by
  refine plain_of_digits fun b member => ?_
  unfold decimalInt at member
  split at member
  · rcases List.mem_cons.mp member with sign | digit
    · exact Or.inl sign
    · exact Or.inr ((decimal_spec _).digits b digit)
  · exact Or.inr ((decimal_spec _).digits b member)

end Lines

/-! ### Numbers -/

section Numbers

theorem wrap64_of_range {n : Int} (low : -2 ^ 63 ≤ n) (high : n < 2 ^ 63) : wrap64 n = n :=
  Int.bmod_eq_of_le (by omega) (by omega)

theorem wrap64_neg (n : Int) : wrap64 (-wrap64 n) = wrap64 (-n) := by
  have mul := Int.bmod_mul_bmod (x := n) (y := -1) (n := 2 ^ 64)
  simpa only [wrap64, Int.mul_neg, Int.mul_one] using mul

theorem wrap64_step (n d : Int) : wrap64 (wrap64 n * 10 + d) = wrap64 (n * 10 + d) := by
  unfold wrap64
  rw [← Int.bmod_add_bmod, Int.bmod_mul_bmod, Int.bmod_add_bmod]

/-- **The digits of a number, read modulo `2 ^ 64`.** -/
theorem foldlM_digitStep : ∀ {digits : Bytes}, (∀ b ∈ digits, isDigit b = true) → ∀ n : Nat,
    digits.foldlM digitStep (wrap64 n) =
      some (wrap64 ↑(digits.foldl (fun n b => n * 10 + (b.toNat - 48)) n))
  | [], _, _ => rfl
  | b :: digits, isDigits, n => by
    have digit := isDigits b List.mem_cons_self
    have atLeast : 48 ≤ b.toNat := by
      simp only [isDigit, Bool.and_eq_true, decide_eq_true_eq, UInt8.le_iff_toNat_le] at digit
      exact digit.1
    have cast : (n : Int) * 10 + (b.toNat - 48) = ↑(n * 10 + (b.toNat - 48)) := by omega
    rw [List.foldlM_cons, digitStep, if_pos digit, Option.bind_eq_bind, Option.bind_some, wrap64_step,
      cast, foldlM_digitStep (fun c member => isDigits c (List.mem_cons_of_mem b member)),
      List.foldl_cons]

theorem readDigits_decimal (neg : Bool) (n : Nat) : readDigits neg (decimal n) =
    some (if neg then wrap64 (-wrap64 n) else wrap64 n) := by
  have number := decimal_spec n
  have value : (decimal n).foldlM digitStep 0 = some (wrap64 ↑(digitsValue (decimal n))) :=
    foldlM_digitStep number.digits 0
  rw [readDigits, if_neg number.nonempty, value, number.value]
  rfl

/-- **A printed integer is read back.** -/
theorem readInt_decimalInt {n : Int} (low : -2 ^ 63 ≤ n) (high : n < 2 ^ 63) :
    readInt (decimalInt n) = some n := by
  unfold decimalInt
  by_cases neg : n < 0
  · rw [if_pos neg, readInt, if_pos rfl, readDigits_decimal, if_pos rfl, wrap64_neg]
    rw [show -(n.natAbs : Int) = n by omega, wrap64_of_range low high]
  · have number := decimal_spec n.natAbs
    obtain ⟨first, rest, text⟩ := List.exists_cons_of_ne_nil number.nonempty
    have digit := number.digits first (by rw [text]; exact List.mem_cons_self)
    have unsigned : first ≠ 45 := by
      rintro rfl
      cases digit
    rw [if_neg neg, text, readInt, if_neg unsigned, ← text, readDigits_decimal,
      if_neg Bool.false_ne_true, show (n.natAbs : Int) = n by omega, wrap64_of_range low high]

theorem readInt_decimal {n : Nat} (small : n < 2 ^ 63) : readInt (decimal n) = some (n : Int) := by
  have read := readInt_decimalInt (n := n) (by omega) (by omega)
  rwa [decimalInt, if_neg (by omega), Int.natAbs_natCast] at read

end Numbers

/-! ### Values -/

section Values

theorem decodeAt_line {fuel : Nat} {typeByte : UInt8} (isType : isTypeByte typeByte = true)
    {line : Bytes} (plain : ¬ crlf <:+: line) (after : Bytes) :
    decodeAt (fuel + 1) (typeByte :: (line ++ crlf ++ after)) =
      decodeLine (decodeAt fuel) typeByte line after := by
  rw [decodeAt, if_neg (by rw [isType]; decide), cut_line after plain]

/-- An array is read by its announced number of elements. -/
theorem decodeAt_array (fuel : Nat) {n : Nat} (small : n < 2 ^ 63) (after : Bytes) :
    decodeAt (fuel + 1) (42 :: (decimal n ++ crlf ++ after)) =
      (times (decodeAt fuel) n after).map (Verdict.map fun result => (.array result.1, result.2)) := by
  rw [decodeAt_line rfl (plain_decimal n), decodeLine, readInt_decimal small]
  rfl

/-- A bulk string is read by its announced length. -/
theorem decodeAt_bulk (fuel : Nat) {n : Nat} (small : n < 2 ^ 63) (after : Bytes) :
    decodeAt (fuel + 1) (36 :: (decimal n ++ crlf ++ after)) = some (decodeBulk n after) := by
  rw [decodeAt_line rfl (plain_decimal n), decodeLine, readInt_decimal small]
  rfl

theorem decodeBulk_data (data rest : Bytes) :
    decodeBulk data.length (data ++ crlf ++ rest) = .ok (.bulk data, rest) := by
  have length : ¬ (data ++ crlf ++ rest).length < data.length + 2 := by
    simp only [List.length_append, show crlf.length = 2 from rfl]
    omega
  have ends : ((data ++ crlf ++ rest).drop data.length).take 2 = crlf := by
    rw [List.append_assoc, List.drop_left]
    rfl
  have after : (data ++ crlf ++ rest).drop (data.length + 2) = rest :=
    List.drop_left' (by rw [List.length_append]; rfl)
  unfold decodeBulk
  rw [if_neg (by omega), Int.toNat_natCast, if_neg length, if_pos ends, after, List.append_assoc,
    List.take_left]

/-- **A list of values is read element by element.** -/
theorem times_encodeAll (fuel : Nat) (rest : Bytes) : ∀ {values : List (RespValue Bytes)},
    (∀ value ∈ values, ∀ rest, (encode value ++ rest).length < fuel →
      decodeAt fuel (encode value ++ rest) = some (.ok (value, rest))) →
    (encodeAll values ++ rest).length < fuel →
    times (decodeAt fuel) values.length (encodeAll values ++ rest) = some (.ok (values, rest))
  | [], _, _ => rfl
  | value :: values, each, enough => by
    rw [encodeAll, List.append_assoc] at enough ⊢
    have first := each value List.mem_cons_self _ enough
    have short : (encodeAll values ++ rest).length < fuel := by
      rw [List.length_append] at enough
      omega
    have others := times_encodeAll fuel rest
      (fun other member => each other (List.mem_cons_of_mem value member)) short
    rw [List.length_cons, times_succ_ok _ first, others]
    rfl

theorem length_encode_pos (value : RespValue Bytes) : 0 < (encode value).length := by
  cases value with
  | simple text => exact Nat.succ_pos _
  | error text => exact Nat.succ_pos _
  | integer n => exact Nat.succ_pos _
  | bulk data => exact Nat.succ_pos _
  | null => exact Nat.succ_pos _
  | array elements => exact Nat.succ_pos _

theorem length_le_encodeAll : ∀ values : List (RespValue Bytes),
    values.length ≤ (encodeAll values).length
  | [] => Nat.le_refl 0
  | value :: values => by
    have here := length_encode_pos value
    have others := length_le_encodeAll values
    rw [encodeAll, List.length_append, List.length_cons]
    omega

theorem encodeAll_append : ∀ values values' : List (RespValue Bytes),
    encodeAll (values ++ values') = encodeAll values ++ encodeAll values'
  | [], _ => rfl
  | value :: values, values' => by
    rw [List.cons_append, encodeAll, encodeAll, encodeAll_append values values', List.append_assoc]

theorem encodableAll_of_each : ∀ {values : List (RespValue Bytes)},
    (∀ value ∈ values, Encodable value) → EncodableAll values
  | [], _ => trivial
  | value :: _, each => ⟨each value List.mem_cons_self,
      encodableAll_of_each fun other member => each other (List.mem_cons_of_mem value member)⟩

theorem EncodableAll.each : ∀ {values : List (RespValue Bytes)}, EncodableAll values →
    ∀ value ∈ values, Encodable value
  | value :: _, ⟨here, all⟩, other, member => by
    rcases List.mem_cons.mp member with rfl | member
    · exact here
    · exact EncodableAll.each all other member

theorem SizedAll.each : ∀ {values : List (RespValue Bytes)}, SizedAll values →
    ∀ value ∈ values, Sized value
  | value :: _, ⟨here, all⟩, other, member => by
    rcases List.mem_cons.mp member with rfl | member
    · exact here
    · exact SizedAll.each all other member

mutual

/-- What fits in memory has such lengths. -/
theorem sized_of_length : ∀ {value : RespValue Bytes}, (encode value).length < 2 ^ 63 → Sized value
  | .bulk data, small => by
    simp only [encode, List.length_cons, List.length_append] at small
    change data.length < 2 ^ 63
    omega
  | .array elements, small => by
    have count := length_le_encodeAll elements
    simp only [encode, List.length_cons, List.length_append] at small
    exact ⟨by omega, sizedAll_of_length (by omega)⟩
  | .simple _, _ => trivial
  | .error _, _ => trivial
  | .integer _, _ => trivial
  | .null, _ => trivial

theorem sizedAll_of_length : ∀ {values : List (RespValue Bytes)}, (encodeAll values).length < 2 ^ 63 →
    SizedAll values
  | [], _ => trivial
  | _ :: _, small => by
    rw [encodeAll, List.length_append] at small
    exact ⟨sized_of_length (by omega), sizedAll_of_length (by omega)⟩

end

/-- **An encoding is decoded** within any bound on the nesting that exceeds the length. -/
theorem decodeAt_encode (fuel : Nat) : ∀ value rest, Encodable value → Sized value →
    (encode value ++ rest).length < fuel →
    decodeAt fuel (encode value ++ rest) = some (.ok (value, rest)) := by
  induction fuel with
  | zero => exact fun _ _ _ _ enough => absurd enough (Nat.not_lt_zero _)
  | succ fuel ih =>
    intro value rest encodable sized enough
    cases value with
    | simple text => exact decodeAt_line rfl encodable rest
    | error text => exact decodeAt_line rfl encodable rest
    | integer n =>
      rw [encode, List.cons_append, decodeAt_line rfl (plain_decimalInt n), decodeLine,
        readInt_decimalInt encodable.1 encodable.2]
      rfl
    | null =>
      rw [encode, List.cons_append, decodeAt_line rfl (plain_decimalInt _), decodeLine,
        readInt_decimalInt (by decide) (by decide)]
      rfl
    | bulk data =>
      rw [encode, List.cons_append, List.append_assoc, decodeAt_bulk fuel sized, decodeBulk_data]
    | array elements =>
      simp only [encode, List.cons_append, List.length_cons, List.length_append] at enough
      have each : ∀ element ∈ elements, ∀ rest, (encode element ++ rest).length < fuel →
          decodeAt fuel (encode element ++ rest) = some (.ok (element, rest)) :=
        fun element member rest =>
          ih element rest (EncodableAll.each encodable element member) (sized.2.each element member)
      have short : (encodeAll elements ++ rest).length < fuel := by
        rw [List.length_append]
        omega
      have read := times_encodeAll fuel rest each short
      rw [encode, List.cons_append, List.append_assoc, decodeAt_array fuel sized.1, read]
      rfl

/-- **An encoding is decoded, and what follows it is left.** -/
theorem decode_encode {value : RespValue Bytes} (encodable : Encodable value) (sized : Sized value)
    (rest : Bytes) : decode (encode value ++ rest) = some (.ok (value, rest)) :=
  decodeAt_encode _ value rest encodable sized (Nat.lt_succ_self _)

end Values

/-! ### The parser -/

section Parser

variable {value : RespValue Bytes} {p : RespParser}

/-- An encoded value is read, and what follows it is left. -/
theorem respParserNext_read (valid : p.Valid) (encodable : Encodable value) {rest : Bytes}
    (text : unread p = encode value ++ rest) : ∃ parsed after,
      respParserNext p = some (.ok parsed, after) ∧ parsed.contents after.buf = value ∧
        unread after = rest := by
  obtain ⟨verdict, after, next, -, decoded, -⟩ := respParserNext_spec valid
  have held : (encode value).length < 2 ^ 63 := by
    have all := length_unread p
    have bound := valid.written.trans_lt valid.granted
    rw [text, List.length_append] at all
    omega
  rw [text, decode_encode encodable (sized_of_length held)] at decoded
  cases verdict with
  | needMore => cases decoded
  | error => cases decoded
  | ok parsed =>
    obtain ⟨same, left⟩ := Prod.mk.inj (Verdict.ok.inj (Option.some.inj decoded))
    exact ⟨parsed, after, next, same.symm, left.symm⟩

/-- A strict prefix of an encoding waits for the rest. -/
theorem respParserNext_front (valid : p.Valid) (encodable : Encodable value) (sized : Sized value)
    {rest : Bytes} (more : rest ≠ []) (text : unread p ++ rest = encode value) :
    ∃ after, respParserNext p = some (.needMore, after) := by
  obtain ⟨verdict, after, next, -, decoded, -⟩ := respParserNext_spec valid
  have whole := decode_encode encodable sized []
  rw [List.append_nil, ← text] at whole
  have stops := decode_settled.strict_front whole more decoded
  cases verdict with
  | needMore => exact ⟨after, next⟩
  | error => cases stops
  | ok parsed => cases stops

end Parser

end Zedis.Resp

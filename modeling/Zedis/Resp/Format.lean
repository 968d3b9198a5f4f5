/-
**The reply formatters (`src/resp_format.c`) and the texts of range replies.**

Each formatter prints one RESP value to a buffer of `cap` bytes and returns its length, or `-1` if it
does not fit with a terminating NUL. What it writes is part of the result, also where it fails midway.
A capacity, and so a length that fits, is below `2 ^ 31`.

`zedis_btree_range` and `zedis_aol_lrange` do not use them. They print an array header and then one bulk
string for each element, with `snprintf`: a text that does not fit with its NUL is refused, and `%.*s`
stops at a NUL of the data.
-/

import Zedis.Lib.Bytes

namespace Zedis.Resp

open Zedis.Lib

/-- What a formatter leaves: the bytes written from the start of the buffer on, and the return value;
`none` is `-1`. -/
structure Formatted where
  written : Bytes
  ret : Option Nat
deriving DecidableEq, Repr

/-- `append_str`: `none` is the return value `-1`. -/
def appendStr (cap : Nat) (used s : Bytes) : Option Bytes :=
  if used.length + s.length ≥ cap then none else some (used ++ s)

/-- The code of `resp_format_simple` and of `resp_format_error`, which differ in the type byte. -/
def formatLine (typeByte : UInt8) (cap : Nat) (str : Bytes) : Formatted :=
  match appendStr cap [] [typeByte] with
  | none => ⟨[], none⟩
  | some used =>
    match appendStr cap used (cstr str) with
    | none => ⟨used, none⟩
    | some used =>
      match appendStr cap used crlf with
      | none => ⟨used, none⟩
      | some used => ⟨used ++ [0], some used.length⟩

/-- `resp_format_simple`. -/
def respFormatSimple (cap : Nat) (str : Bytes) : Formatted := formatLine 43 cap str

/-- `resp_format_error`. -/
def respFormatError (cap : Nat) (msg : Bytes) : Formatted := formatLine 45 cap msg

/-- `resp_format_integer`. -/
def respFormatInteger (cap : Nat) (value : Int) : Formatted :=
  let text := 58 :: (decimalInt value ++ crlf)
  ⟨snprintf cap text, if text.length > 0 ∧ text.length < cap then some text.length else none⟩

/-- `resp_format_bulk`. -/
def respFormatBulk (cap : Nat) (data : Bytes) : Formatted :=
  let header := 36 :: (decimal data.length ++ crlf)
  if header.length = 0 ∨ header.length ≥ cap then ⟨snprintf cap header, none⟩
  else if header.length + data.length + 3 > cap then ⟨snprintf cap header, none⟩
  else
    let used := header ++ data ++ crlf
    ⟨used ++ [0], some used.length⟩

/-- `resp_format_null`. -/
def respFormatNull (cap : Nat) : Formatted :=
  let nullBulk := ascii "$-1\r\n"
  if nullBulk.length ≥ cap then ⟨[], none⟩ else ⟨nullBulk ++ [0], some nullBulk.length⟩

end Zedis.Resp

namespace Zedis.Reply

open Zedis.Lib

/-- What `snprintf` of a text leaves in a buffer of `cap` bytes, if it fits with its NUL. -/
def formatted (text : Bytes) (cap : Nat) : Option Bytes :=
  if text.length ≥ cap then none else some text

/-- `"*%d\r\n"`. -/
def arrayHeader (count : Nat) : Bytes := 42 :: decimal count ++ crlf

/-- `"$%zu\r\n%.*s\r\n"`. -/
def bulkText (data : Bytes) : Bytes :=
  36 :: decimal data.length ++ crlf ++ data.takeWhile (· ≠ 0) ++ crlf

/-- The array of some elements. -/
def rangeText (elements : List Bytes) : Bytes :=
  arrayHeader elements.length ++ (elements.map bulkText).flatten

theorem length_bulkText_le (data : Bytes) :
    (bulkText data).length ≤ (decimal data.length).length + data.length + 5 := by
  have shorter := (List.takeWhile_sublist (l := data) (· ≠ 0)).length_le
  simp only [bulkText, crlf, List.cons_append, List.length_cons, List.length_append,
    List.length_nil]
  omega

end Zedis.Reply

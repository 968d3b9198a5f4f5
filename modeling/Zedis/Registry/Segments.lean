/-
**The elements of range replies.**

`zedis_aol_lrange` and `collect_inorder` print an element with `"$%zu\\r\\n%.*s\\r\\n"`, which announces all
of its bytes and prints those before its first NUL; `resp_format_bulk` copies them all. The two agree
exactly if the element contains no NUL (`segments_binary_safe_iff`).

`collect_inorder` leaves out an element that does not fit, after the header has announced it. So the
header of `ZRANGE` is right exactly if all the selected members fit (`range_announces_iff`).
-/

import Zedis.AppendLog.Range
import Zedis.BTree.Range
import Zedis.Resp.Printed

namespace Zedis.Registry

open Zedis.Lib Zedis.Reply Zedis.Resp Zedis.BTree Zedis.AppendLog

/-- The text is what `resp_format_bulk` produces for the data, in every buffer that has room for it. -/
def Formats (data text : Bytes) : Prop :=
  ∀ cap n, (respFormatBulk cap data).ret = some n → (respFormatBulk cap data).written.take n = text

/-- `zedis_aol_lrange` appends the value of the record at `off` as `resp_format_bulk` formats it. -/
def ListSegmentExact (log : ZedisAppendLog) (off : Nat) : Prop :=
  ∀ cap reply after, printElement log cap reply off = some after →
    ∃ text, after = reply ++ text ∧ Formats (valAt log off) text

/-- `collect_inorder` appends a member that fits as `resp_format_bulk` formats it. -/
def MemberSegmentExact (tree : ZedisBtree) (midx : Nat) : Prop :=
  ∀ (start stop : Int) (cap : Nat) (i : Int) (reply : Bytes), start ≤ i → i ≤ stop →
    reply.length + (bulkText (tree.members midx).data).length < cap →
    ∃ text, (collectMember tree start stop cap (i, reply) midx).2 = reply ++ text ∧
      Formats (tree.members midx).data text

/-! ### One element -/

section Element

variable {data text : Bytes}

theorem length_bulkText (data : Bytes) :
    (bulkText data).length = (decimal data.length).length + (cstr data).length + 5 := by
  simp only [bulkText, cstr, crlf, List.cons_append, List.length_cons, List.length_append,
    List.length_nil]
  omega

/-- **The printed element is the encoded one exactly if it contains no NUL.** -/
theorem bulkText_eq_encode_iff : bulkText data = encode (.bulk data) ↔ 0 ∉ data := by
  constructor
  · intro same
    have lengths := congrArg List.length same
    rw [length_bulkText, length_encode_bulk] at lengths
    exact cstr_length_eq_iff.mp (by omega)
  · intro noNul
    have all : data.takeWhile (· ≠ 0) = data := cstr_eq_self noNul
    rw [bulkText, all, encode, List.cons_append, List.cons_append, List.cons_append, List.append_assoc,
      List.append_assoc]

theorem length_bulkText_le_encode (data : Bytes) :
    (bulkText data).length ≤ (encode (.bulk data)).length := by
  have shorter := (List.takeWhile_sublist (l := data) (· ≠ 0)).length_le
  rw [length_bulkText, length_encode_bulk, cstr]
  omega

theorem length_flatten_bulkText_le : ∀ items : List Bytes,
    (items.map bulkText).flatten.length ≤ (encodeAll (items.map .bulk)).length
  | [] => le_rfl
  | item :: items => by
    have first := length_bulkText_le_encode item
    have others := length_flatten_bulkText_le items
    rw [List.map_cons, List.flatten_cons, List.map_cons, encodeAll, List.length_append,
      List.length_append]
    omega

theorem formats_iff : Formats data text ↔ text = encode (.bulk data) := by
  constructor
  · intro formats
    have printed := (respFormatBulk_prints ((encode (.bulk data)).length + 1) data).fits
      (Nat.lt_succ_self _)
    have same := formats _ (encode (.bulk data)).length (by rw [printed])
    rw [printed, List.take_left] at same
    exact same.symm
  · rintro rfl cap n returned
    have prints := respFormatBulk_prints cap data
    by_cases room : (encode (.bulk data)).length < cap
    · rw [prints.fits room] at returned ⊢
      cases returned
      exact List.take_left
    · rw [prints.refuses (Nat.not_lt.mp room)] at returned
      cases returned

/-- **The printed elements are the encoded ones exactly if none contains a NUL.** -/
theorem flatten_bulkText_iff : ∀ {items : List Bytes},
    (items.map bulkText).flatten = encodeAll (items.map .bulk) ↔ ∀ item ∈ items, 0 ∉ item
  | [] => ⟨fun _ => nofun, fun _ => rfl⟩
  | item :: items => by
    rw [List.map_cons, List.flatten_cons, List.map_cons, encodeAll, List.forall_mem_cons]
    constructor
    · intro same
      -- no element is printed longer than it is encoded, so the first ones are equally long
      have lengths := congrArg List.length same
      have first := length_bulkText_le_encode item
      have others := length_flatten_bulkText_le items
      rw [List.length_append, List.length_append] at lengths
      obtain ⟨here, rest⟩ := List.append_inj same (by omega)
      exact ⟨bulkText_eq_encode_iff.mp here, flatten_bulkText_iff.mp rest⟩
    · rintro ⟨here, rest⟩
      rw [bulkText_eq_encode_iff.mpr here, flatten_bulkText_iff.mpr rest]

/-- An appended element is exact exactly if it contains no NUL. -/
theorem appended_formats_iff {reply : Bytes} :
    (∃ text, reply ++ bulkText data = reply ++ text ∧ Formats data text) ↔ 0 ∉ data := by
  rw [← bulkText_eq_encode_iff]
  constructor
  · rintro ⟨text, same, formats⟩
    rw [List.append_cancel_left same]
    exact formats_iff.mp formats
  · exact fun same => ⟨bulkText data, rfl, formats_iff.mpr same⟩

end Element

/-- **The segment of an element is binary safe exactly if the element contains no NUL**, for every stored
list value and every stored member. -/
theorem segments_binary_safe_iff (log : ZedisAppendLog) {off : Nat} (stored : hdrAt log off = true)
    (tree : ZedisBtree) (midx : Nat) :
    (ListSegmentExact log off ↔ 0 ∉ valAt log off) ∧
      (MemberSegmentExact tree midx ↔ 0 ∉ (tree.members midx).data) := by
  have isHeader : ¬ hdrAt log off = false := by
    rw [stored]
    exact Bool.noConfusion
  constructor
  · constructor
    · intro exact
      apply appended_formats_iff.mp
      refine exact ((bulkText (valAt log off)).length + 1) [] _ ?_
      rw [printElement, if_neg isHeader, if_neg (by rw [List.length_nil]; omega)]
    · intro noNul cap reply after printed
      rw [printElement, if_neg isHeader] at printed
      obtain ⟨-, same⟩ := Option.ite_none_left_eq_some.mp printed
      cases same
      exact appended_formats_iff.mpr noNul
  · have appended : ∀ {start stop i : Int} {cap : Nat} {reply : Bytes}, start ≤ i → i ≤ stop →
        reply.length + (bulkText (tree.members midx).data).length < cap →
        (collectMember tree start stop cap (i, reply) midx).2 =
          reply ++ bulkText (tree.members midx).data := by
      intro start stop i cap reply above below fits
      simp only [collectMember, if_pos (And.intro above below), if_pos fits]
    constructor
    · intro exact
      have fits : ([] : Bytes).length + (bulkText (tree.members midx).data).length <
          (bulkText (tree.members midx).data).length + 1 := by
        rw [List.length_nil]
        omega
      have formatted := exact 0 0 _ 0 [] le_rfl le_rfl fits
      rw [appended le_rfl le_rfl fits] at formatted
      exact appended_formats_iff.mp formatted
    · intro noNul start stop cap i reply above below fits
      rw [appended above below fits]
      exact appended_formats_iff.mpr noNul

/-! ### Samples of stored elements -/

section Sample

/-- A new log of 4096 bytes after one `LPUSH` of a value. -/
def pushedOnce (val : Bytes) : Option ZedisAppendLog :=
  (zedisAolInit (some fun _ => 0) 4096).map fun log => (zedisAolLpush log emptyList [107] val).2.1

/-- Two elements without a NUL. -/
theorem segments_binary_safe_iff_letters : ∃ log tree, pushedOnce [97] = some log ∧ Reachable tree ∧
    hdrAt log 0 = true ∧ ListSegmentExact log 0 ∧ MemberSegmentExact tree 0 := by
  have logSeen : (pushedOnce [97]).map (fun log => (hdrAt log 0, valAt log 0)) = some (true, [97]) := by
    decide +kernel
  have treeSeen : (sampleTree 8 [⟨1, [98]⟩]).map (fun tree => (tree.members 0).data) = some [98] := by
    decide +kernel
  obtain ⟨log, made, seen⟩ := Option.map_eq_some_iff.mp logSeen
  obtain ⟨stored, value⟩ := Prod.mk.inj seen
  obtain ⟨tree, built, data⟩ := Option.map_eq_some_iff.mp treeSeen
  obtain ⟨list, member⟩ := segments_binary_safe_iff log stored tree 0
  rw [value] at list
  rw [data] at member
  exact ⟨log, tree, made, reachable_sampleTree built, stored, list.mpr (by decide),
    member.mpr (by decide)⟩

/-- **A NUL cuts the element**: of the value `a`, NUL, `b`, which is stored in full, both ranges print
`a` after the length 3. -/
theorem nul_cuts_segments : ∃ log tree, pushedOnce [97, 0, 98] = some log ∧ Reachable tree ∧
    hdrAt log 0 = true ∧ valAt log 0 = [97, 0, 98] ∧ (tree.members 0).data = [97, 0, 98] ∧
    printElement log 64 [] 0 = some (ascii "$3\r\na\r\n") ∧
    (collectMember tree 0 0 64 (0, []) 0).2 = ascii "$3\r\na\r\n" ∧
    (respFormatBulk 64 [97, 0, 98]).written = ascii "$3\r\na" ++ [0] ++ ascii "b\r\n" ++ [0] ∧
    ¬ ListSegmentExact log 0 ∧ ¬ MemberSegmentExact tree 0 := by
  have logSeen : (pushedOnce [97, 0, 98]).map (fun log =>
      (hdrAt log 0, valAt log 0, printElement log 64 [] 0)) =
        some (true, [97, 0, 98], some (ascii "$3\r\na\r\n")) := by decide +kernel
  have treeSeen : (sampleTree 8 [⟨1, [97, 0, 98]⟩]).map (fun tree =>
      ((tree.members 0).data, (collectMember tree 0 0 64 (0, []) 0).2)) =
        some ([97, 0, 98], ascii "$3\r\na\r\n") := by decide +kernel
  obtain ⟨log, made, seen⟩ := Option.map_eq_some_iff.mp logSeen
  obtain ⟨stored, seen⟩ := Prod.mk.inj seen
  obtain ⟨value, printed⟩ := Prod.mk.inj seen
  obtain ⟨tree, built, seen⟩ := Option.map_eq_some_iff.mp treeSeen
  obtain ⟨data, collected⟩ := Prod.mk.inj seen
  have cut : ¬ Formats [97, 0, 98] (ascii "$3\r\na\r\n") := by
    rw [formats_iff]
    decide
  refine ⟨log, tree, made, reachable_sampleTree built, stored, value, data, printed, collected, rfl,
    fun exact => ?_, fun exact => ?_⟩
  · obtain ⟨text, same, formats⟩ := exact 64 [] _ printed
    rw [List.nil_append] at same
    rw [value, ← same] at formats
    exact cut formats
  · obtain ⟨text, same, formats⟩ := exact 0 0 64 0 [] le_rfl le_rfl (by rw [data]; decide)
    rw [collected, List.nil_append] at same
    rw [data, ← same] at formats
    exact cut formats

end Sample

/-! ### The header of `ZRANGE` -/

section Header

/-- The members at the positions `max(start, 0)` to `e` of the walk, `e` being `stop` if it is one of
the positions, and the last of them otherwise. -/
def selected (tree : ZedisBtree) (start stop : Int) : List Bytes :=
  positions (membersOf tree) (max start 0) (lastPosition (membersOf tree).length stop)

/-- The reply announces and prints the selected members: the number in its header is that of the
segments after it, which are those of the selected members, in their order. -/
def AnnouncesSelected (tree : ZedisBtree) (start stop : Int) (cap : Nat) : Prop :=
  ∀ reply, zedisBtreeRange tree start stop cap = some (some reply) →
    reply = arrayHeader (selected tree start stop).length ++
      ((selected tree start stop).map bulkText).flatten

/-- The same, with the bytes of the members. -/
def PrintsSelected (tree : ZedisBtree) (start stop : Int) (cap : Nat) : Prop :=
  ∀ reply, zedisBtreeRange tree start stop cap = some (some reply) →
    reply = encode (.array ((selected tree start stop).map .bulk))

/-- All the selected members fit, or not even the header does, and the call fails. -/
def SelectedFits (tree : ZedisBtree) (start stop : Int) (cap : Nat) : Prop :=
  (rangeText (selected tree start stop)).length < cap ∨
    cap ≤ (arrayHeader (selected tree start stop).length).length

variable {tree : ZedisBtree}

/-- What a call returns, by whether all fits. -/
theorem zedisBtreeRange_selected (reach : Reachable tree) (start stop : Int) (cap : Nat) :
    zedisBtreeRange tree start stop cap = some (fittingText (selected tree start stop) cap) := by
  obtain ⟨t, inv⟩ := reach.inv
  rw [zedisBtreeRange_eq inv, slice_eq_positions, selected]

theorem encode_selected (items : List Bytes) :
    encode (.array (items.map .bulk)) = arrayHeader items.length ++ encodeAll (items.map .bulk) := by
  rw [encode, List.length_map, arrayHeader]
  simp only [List.cons_append]

theorem fittingText_eq_none {items : List Bytes} {cap : Nat}
    (full : cap ≤ (arrayHeader items.length).length) : fittingText items cap = none := by
  rw [fittingText, formatted, if_pos full, Option.map_none]

/-- A reply that leaves something out is shorter than the whole text. -/
theorem fits_of_whole {items : List Bytes} {cap : Nat} {reply : Bytes}
    (printed : fittingText items cap = some reply) (whole : (rangeText items).length ≤ reply.length) :
    (rangeText items).length < cap :=
  whole.trans_lt (length_fittingText printed).2

/-- **The header of `ZRANGE` is right exactly if all selected members fit**, or the call fails; and then
the bytes are those of the members exactly if none of them contains a NUL. -/
theorem range_announces_iff (reach : Reachable tree) (start stop : Int) (cap : Nat) :
    (AnnouncesSelected tree start stop cap ↔ SelectedFits tree start stop cap) ∧
      (PrintsSelected tree start stop cap ↔ SelectedFits tree start stop cap ∧
        (cap ≤ (arrayHeader (selected tree start stop).length).length ∨
          ∀ member ∈ selected tree start stop, 0 ∉ member)) := by
  unfold AnnouncesSelected PrintsSelected SelectedFits
  rw [zedisBtreeRange_selected reach]
  generalize selected tree start stop = items
  by_cases full : cap ≤ (arrayHeader items.length).length
  · rw [fittingText_eq_none full]
    exact ⟨⟨fun _ => Or.inr full, fun _ => nofun⟩, ⟨fun _ => ⟨Or.inr full, Or.inl full⟩, fun _ => nofun⟩⟩
  · obtain ⟨reply, printed⟩ : ∃ reply, fittingText items cap = some reply := by
      rw [fittingText, formatted, if_neg full]
      exact ⟨_, rfl⟩
    have only : ∀ text, (∀ other, some (fittingText items cap) = some (some other) → other = text) ↔
        reply = text := by
      intro text
      rw [printed]
      refine ⟨fun all => all reply rfl, fun same other isReply => ?_⟩
      cases isReply
      exact same
    rw [only, only, or_iff_left full, or_iff_right full]
    have texts : rangeText items = arrayHeader items.length ++ (items.map bulkText).flatten := rfl
    rw [← texts, encode_selected]
    constructor
    · constructor
      · rintro rfl
        exact fits_of_whole printed le_rfl
      · intro fits
        exact Option.some.inj (printed.symm.trans (fittingText_of_fits fits))
    · constructor
      · intro same
        have shorter := length_flatten_bulkText_le items
        have fits : (rangeText items).length < cap := by
          refine fits_of_whole printed ?_
          rw [texts, same, List.length_append, List.length_append]
          omega
        have whole := Option.some.inj (printed.symm.trans (fittingText_of_fits fits))
        rw [whole, texts] at same
        exact ⟨fits, flatten_bulkText_iff.mp (List.append_cancel_left same)⟩
      · rintro ⟨fits, noNul⟩
        rw [Option.some.inj (printed.symm.trans (fittingText_of_fits fits)), texts,
          flatten_bulkText_iff.mpr noNul]

/-- Two members, and room for both. -/
theorem range_announces_iff_two : ∃ tree, Reachable tree ∧
    selected tree 0 (-1) = [[97], [98]] ∧ PrintsSelected tree 0 (-1) 32 := by
  have seen : (sampleTree 8 [⟨1, [97]⟩, ⟨2, [98]⟩]).map (fun tree => selected tree 0 (-1)) =
      some [[97], [98]] := by decide +kernel
  obtain ⟨tree, built, chosen⟩ := Option.map_eq_some_iff.mp seen
  refine ⟨tree, reachable_sampleTree built, chosen, ?_⟩
  apply (range_announces_iff (reachable_sampleTree built) 0 (-1) 32).2.mpr
  unfold SelectedFits
  rw [chosen]
  exact ⟨Or.inl (by decide), Or.inr (by decide)⟩

/-- **A member that does not fit is announced**: with room for 16 bytes the range of two members has the
header of two and the first of them. -/
theorem range_leaves_out_announced : ∃ tree, Reachable tree ∧ selected tree 0 (-1) = [[97], [98]] ∧
    zedisBtreeRange tree 0 (-1) 16 = some (some (ascii "*2\r\n$1\r\na\r\n")) ∧
    ¬ AnnouncesSelected tree 0 (-1) 16 := by
  have seen : (sampleTree 8 [⟨1, [97]⟩, ⟨2, [98]⟩]).map (fun tree =>
      (selected tree 0 (-1), zedisBtreeRange tree 0 (-1) 16)) =
      some ([[97], [98]], some (some (ascii "*2\r\n$1\r\na\r\n"))) := by decide +kernel
  obtain ⟨tree, built, seen⟩ := Option.map_eq_some_iff.mp seen
  obtain ⟨chosen, reply⟩ := Prod.mk.inj seen
  refine ⟨tree, reachable_sampleTree built, chosen, reply, fun announced => ?_⟩
  have same := announced _ reply
  rw [chosen] at same
  exact absurd same (by decide)

end Header

end Zedis.Registry

/-
**What the parser reads off a string of bytes.**

`decode` says on strings, without a buffer and without positions, what `parse_value` does: the value
at the front and the bytes after it, an error, or that more bytes are needed. It is settled
(`decode_settled`): what is accepted or rejected stays so when bytes are appended, because each line
is cut at its first end, a bulk string is taken by its length, and the elements of an array are taken
one after the other.
-/

import Zedis.Resp.Model

namespace Zedis.Resp

open Zedis.Lib

/-- The number of some digits, at least one, with its sign. -/
def readDigits (neg : Bool) (digits : Bytes) : Option Int :=
  if digits = [] then none
  else (digits.foldlM digitStep 0).map fun value => if neg then wrap64 (-value) else value

/-- The number in a line. -/
def readInt : Bytes → Option Int
  | [] => none
  | b :: rest => if b = 45 then readDigits true rest else readDigits false (b :: rest)

/-- A line without the carriage return at its end. -/
def chomp (line : Bytes) : Bytes := if line.getLast? = some 13 then line.dropLast else line

/-- An inline command. -/
def decodeInline (u : Bytes) : Verdict (RespValue Bytes × Bytes) :=
  match cut [10] u with
  | none => .needMore
  | some (line, after) => .ok (.array ((words isBlank (chomp line)).map .bulk), after)

/-- A bulk string of the announced length. -/
def decodeBulk (bulkLen : Int) (after : Bytes) : Verdict (RespValue Bytes × Bytes) :=
  if bulkLen < 0 then .ok (.null, after)
  else if after.length < bulkLen.toNat + 2 then .needMore
  else if (after.drop bulkLen.toNat).take 2 = crlf then
    .ok (.bulk (after.take bulkLen.toNat), after.drop (bulkLen.toNat + 2))
  else .error

/-- What follows a type byte and its line. -/
def decodeLine (parse : Bytes → Option (Verdict (RespValue Bytes × Bytes))) (typeByte : UInt8)
    (line after : Bytes) : Option (Verdict (RespValue Bytes × Bytes)) :=
  if typeByte = 43 then some (.ok (.simple line, after))
  else if typeByte = 45 then some (.ok (.error line, after))
  else
    match readInt line with
    | none => some .error
    | some value =>
      if typeByte = 58 then some (.ok (.integer value, after))
      else if typeByte = 36 then some (decodeBulk value after)
      else if value < 0 then some (.ok (.null, after))
      else (times parse value.toNat after).map (Verdict.map fun result => (.array result.1, result.2))

/-- The value at the front of a string, with a bound on the nesting. -/
def decodeAt : Nat → Bytes → Option (Verdict (RespValue Bytes × Bytes))
  | 0, _ => none
  | _ + 1, [] => some .needMore
  | fuel + 1, typeByte :: u =>
    if isTypeByte typeByte = false then some (decodeInline (typeByte :: u))
    else
      match cut crlf u with
      | none => some .needMore
      | some (line, after) => decodeLine (decodeAt fuel) typeByte line after

/-- **The value at the front of a string.** -/
def decode (u : Bytes) : Option (Verdict (RespValue Bytes × Bytes)) := decodeAt (u.length + 1) u

/-! ### Settled verdicts -/

section Settled

variable {parse : Bytes → Option (Verdict (RespValue Bytes × Bytes))}

theorem decodeInline_append {u : Bytes} (t : Bytes) (decided : decodeInline u ≠ .needMore) :
    decodeInline (u ++ t) = (decodeInline u).extend t := by
  unfold decodeInline at decided ⊢
  cases found : cut [10] u with
  | none =>
    rw [found] at decided
    exact absurd rfl decided
  | some parts =>
    rw [cut_append t found]
    rfl

theorem decodeBulk_append {bulkLen : Int} {u : Bytes} (t : Bytes)
    (decided : decodeBulk bulkLen u ≠ .needMore) :
    decodeBulk bulkLen (u ++ t) = (decodeBulk bulkLen u).extend t := by
  unfold decodeBulk at decided ⊢
  by_cases neg : bulkLen < 0
  · rw [if_pos neg, if_pos neg]
    rfl
  · rw [if_neg neg] at decided
    rw [if_neg neg, if_neg neg]
    by_cases short : u.length < bulkLen.toNat + 2
    · rw [if_pos short] at decided
      exact absurd rfl decided
    · have long : ¬ (u ++ t).length < bulkLen.toNat + 2 := by
        rw [List.length_append]
        omega
      have ends : ((u ++ t).drop bulkLen.toNat).take 2 = (u.drop bulkLen.toNat).take 2 := by
        rw [List.drop_append_of_le_length (by omega), List.take_append_of_le_length]
        rw [List.length_drop]
        omega
      rw [if_neg short, if_neg long, ends, List.take_append_of_le_length (by omega),
        List.drop_append_of_le_length (by omega)]
      by_cases closed : (u.drop bulkLen.toNat).take 2 = crlf
      · rw [if_pos closed, if_pos closed]
        rfl
      · rw [if_neg closed, if_neg closed]
        rfl

/-- **What can follow a type byte and its line**: nothing, an error, a bulk string or elements. -/
theorem decodeLine_cases (typeByte : UInt8) (line : Bytes) :
    (∃ value, ∀ parse after, decodeLine parse typeByte line after = some (.ok (value, after))) ∨
    (∀ parse after, decodeLine parse typeByte line after = some .error) ∨
    (∃ bulkLen, ∀ parse after,
      decodeLine parse typeByte line after = some (decodeBulk bulkLen after)) ∨
    ∃ n, ∀ parse after, decodeLine parse typeByte line after =
      (times parse n after).map (Verdict.map fun result => (.array result.1, result.2)) := by
  unfold decodeLine
  by_cases isSimple : typeByte = 43
  · exact Or.inl ⟨.simple line, fun _ _ => if_pos isSimple⟩
  by_cases isError : typeByte = 45
  · exact Or.inl ⟨.error line, fun _ _ => by rw [if_neg isSimple, if_pos isError]⟩
  simp only [if_neg isSimple, if_neg isError]
  cases readInt line with
  | none => exact Or.inr (Or.inl fun _ _ => rfl)
  | some value =>
    by_cases isInteger : typeByte = 58
    · exact Or.inl ⟨.integer value, fun _ _ => if_pos isInteger⟩
    by_cases isBulk : typeByte = 36
    · exact Or.inr (Or.inr (Or.inl ⟨value, fun _ _ => by simp only [if_neg isInteger, if_pos isBulk]⟩))
    simp only [if_neg isInteger, if_neg isBulk]
    by_cases neg : value < 0
    · exact Or.inl ⟨.null, fun _ _ => if_pos neg⟩
    · exact Or.inr (Or.inr (Or.inr ⟨value.toNat, fun _ _ => if_neg neg⟩))

theorem decodeLine_settled (settled : Settled parse) (typeByte : UInt8) (line : Bytes) :
    Settled (decodeLine parse typeByte line) := by
  intro u t verdict said decided
  rcases decodeLine_cases typeByte line with ⟨value, law⟩ | law | ⟨bulkLen, law⟩ | ⟨n, law⟩
  · rw [law] at said ⊢
    cases said
    rfl
  · rw [law] at said ⊢
    cases said
    rfl
  · rw [law] at said ⊢
    cases said
    exact congrArg some (decodeBulk_append t decided)
  · rw [law] at said ⊢
    obtain ⟨elements, repeated, rfl⟩ := Option.map_eq_some_iff.mp said
    have decidedElements : elements ≠ .needMore := fun more => decided (by rw [more]; rfl)
    rw [settled.times n u t elements repeated decidedElements, Option.map_some]
    cases elements with
    | needMore => rfl
    | error => rfl
    | ok result => rfl

theorem decodeAt_settled (fuel : Nat) : Settled (decodeAt fuel) := by
  induction fuel with
  | zero =>
    intro u t verdict said
    cases said
  | succ fuel ih =>
    intro u t verdict said decided
    cases u with
    | nil =>
      cases said
      exact absurd rfl decided
    | cons typeByte u =>
      rw [decodeAt] at said
      rw [List.cons_append, decodeAt]
      by_cases inline : isTypeByte typeByte = false
      · rw [if_pos inline] at said ⊢
        cases said
        exact congrArg some (decodeInline_append t decided)
      · rw [if_neg inline] at said ⊢
        cases found : cut crlf u with
        | none =>
          rw [found] at said
          cases said
          exact absurd rfl decided
        | some parts =>
          rw [found] at said
          rw [cut_append t found]
          exact decodeLine_settled ih typeByte parts.1 parts.2 t verdict said decided

end Settled

/-! ### Progress and totality -/

section Progress

variable {parse : Bytes → Option (Verdict (RespValue Bytes × Bytes))}

theorem decodeBulk_length {bulkLen : Int} {u rest : Bytes} {value : RespValue Bytes}
    (said : decodeBulk bulkLen u = .ok (value, rest)) : rest.length ≤ u.length := by
  unfold decodeBulk at said
  split at said
  · cases said
    exact le_rfl
  · split at said
    · cases said
    · split at said
      · cases said
        rw [List.length_drop]
        exact Nat.sub_le _ _
      · cases said

theorem decodeLine_length (shrinks : Shrinks parse) {typeByte : UInt8} {line after rest : Bytes}
    {value : RespValue Bytes} (said : decodeLine parse typeByte line after = some (.ok (value, rest))) :
    rest.length ≤ after.length := by
  rcases decodeLine_cases typeByte line with ⟨value, law⟩ | law | ⟨bulkLen, law⟩ | ⟨n, law⟩
  · rw [law] at said
    cases said
    exact le_rfl
  · rw [law] at said
    cases said
  · rw [law] at said
    exact decodeBulk_length (Option.some.inj said)
  · rw [law] at said
    obtain ⟨elements, repeated, same⟩ := Option.map_eq_some_iff.mp said
    cases elements with
    | needMore => cases same
    | error => cases same
    | ok result =>
      cases same
      exact shrinks.times_le _ _ _ _ repeated

theorem decodeAt_shrinks (fuel : Nat) : Shrinks (decodeAt fuel) := by
  induction fuel with
  | zero =>
    intro u value rest said
    cases said
  | succ fuel ih =>
    intro u value rest said
    cases u with
    | nil => cases said
    | cons typeByte u =>
      rw [decodeAt] at said
      by_cases inline : isTypeByte typeByte = false
      · rw [if_pos inline] at said
        unfold decodeInline at said
        cases found : cut [10] (typeByte :: u) with
        | none =>
          rw [found] at said
          cases said
        | some parts =>
          have length := cut_length found
          rw [found] at said
          cases said
          rw [length, List.length_singleton]
          omega
      · rw [if_neg inline] at said
        cases found : cut crlf u with
        | none =>
          rw [found] at said
          cases said
        | some parts =>
          have length := cut_length found
          rw [found] at said
          have shorter := decodeLine_length ih said
          rw [List.length_cons]
          omega

theorem decodeLine_isSome (shrinks : Shrinks parse) {bound : Nat}
    (total : ∀ u, u.length < bound → (parse u).isSome) (typeByte : UInt8) (line : Bytes)
    {after : Bytes} (short : after.length < bound) :
    (decodeLine parse typeByte line after).isSome := by
  rcases decodeLine_cases typeByte line with ⟨value, law⟩ | law | ⟨bulkLen, law⟩ | ⟨n, law⟩
  · rw [law]
    rfl
  · rw [law]
    rfl
  · rw [law]
    rfl
  · rw [law, Option.isSome_map]
    exact times_isSome shrinks total n after short

/-- **A string shorter than the bound on the nesting is decoded.** -/
theorem decodeAt_isSome (fuel : Nat) : ∀ u, u.length < fuel → (decodeAt fuel u).isSome := by
  induction fuel with
  | zero => exact fun u short => absurd short (Nat.not_lt_zero _)
  | succ fuel ih =>
    intro u short
    cases u with
    | nil => rfl
    | cons typeByte u =>
      rw [decodeAt]
      by_cases inline : isTypeByte typeByte = false
      · rw [if_pos inline]
        rfl
      · rw [if_neg inline]
        cases found : cut crlf u with
        | none => rfl
        | some parts =>
          have length := cut_length found
          rw [List.length_cons] at short
          exact decodeLine_isSome (decodeAt_shrinks fuel) ih typeByte parts.1 (by omega)

theorem decodeLine_mono {parse' : Bytes → Option (Verdict (RespValue Bytes × Bytes))}
    (more : ∀ u verdict, parse u = some verdict → parse' u = some verdict) {typeByte : UInt8}
    {line after : Bytes} {verdict : Verdict (RespValue Bytes × Bytes)}
    (said : decodeLine parse typeByte line after = some verdict) :
    decodeLine parse' typeByte line after = some verdict := by
  rcases decodeLine_cases typeByte line with ⟨value, law⟩ | law | ⟨bulkLen, law⟩ | ⟨n, law⟩
  · rwa [law] at said ⊢
  · rwa [law] at said ⊢
  · rwa [law] at said ⊢
  · rw [law] at said ⊢
    obtain ⟨elements, repeated, rfl⟩ := Option.map_eq_some_iff.mp said
    rw [times_mono more n after elements repeated, Option.map_some]

theorem decodeAt_succ (fuel : Nat) : ∀ u verdict, decodeAt fuel u = some verdict →
    decodeAt (fuel + 1) u = some verdict := by
  induction fuel with
  | zero =>
    intro u verdict said
    cases said
  | succ fuel ih =>
    intro u verdict said
    cases u with
    | nil => exact said
    | cons typeByte u =>
      rw [decodeAt] at said ⊢
      by_cases inline : isTypeByte typeByte = false
      · rwa [if_pos inline] at said ⊢
      · rw [if_neg inline] at said ⊢
        cases found : cut crlf u with
        | none => rwa [found] at said
        | some parts =>
          rw [found] at said
          exact decodeLine_mono ih said

theorem decode_isSome (u : Bytes) : (decode u).isSome :=
  decodeAt_isSome (u.length + 1) u (Nat.lt_succ_self _)

/-- **Any sufficient bound on the nesting gives the same verdict.** -/
theorem decodeAt_eq {fuel : Nat} {u : Bytes} (enough : u.length < fuel) :
    decodeAt fuel u = decode u := by
  obtain ⟨verdict, said⟩ := Option.isSome_iff_exists.mp (decode_isSome u)
  obtain ⟨extra, rfl⟩ := Nat.exists_eq_add_of_le (Nat.succ_le_of_lt enough)
  rw [said]
  clear enough
  induction extra with
  | zero => exact said
  | succ extra ih => exact decodeAt_succ _ u verdict ih

theorem decode_settled : Settled decode := by
  intro u t verdict said decided
  have still := decodeAt_settled (u.length + 1) u t verdict said decided
  obtain ⟨extra, longer⟩ : ∃ extra, (u ++ t).length + 1 = u.length + 1 + extra := by
    refine ⟨t.length, ?_⟩
    rw [List.length_append]
    omega
  rw [decode, longer]
  clear longer
  induction extra with
  | zero => exact still
  | succ extra ih => exact decodeAt_succ _ _ _ ih

theorem decode_shrinks : Shrinks decode := fun u value rest said =>
  decodeAt_shrinks (u.length + 1) u value rest said

end Progress

end Zedis.Resp

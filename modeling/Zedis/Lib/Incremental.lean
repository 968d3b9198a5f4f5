/-
**Parsers of a growing input.**

A parser takes a value off the front of its input, rejects it, or needs more of it. It may be a
recursion with a bound on its depth, so it is partial (`none`).

* `Settled`: once a parser has accepted or rejected, more input does not change what it said;
* `times`: a parser repeated a number of times, with the laws of the repetition;
* `Simulates`: a parser of one kind of state follows a parser of another;
* `Takes`: some values are read from the front of an input, in order;
* `Drained`: what is read from an input until the parser stops. A settled parser reads the same from
  an input that arrives in pieces (`Drained.append`, `Drained.append_error`).
-/

import Mathlib.Data.List.Basic

namespace Zedis.Lib

/-- What a parser says. -/
inductive Verdict (α : Type)
  | needMore
  | error
  | ok (value : α)
deriving DecidableEq, Repr

variable {α β γ σ τ : Type}

namespace Verdict

def map (g : α → β) : Verdict α → Verdict β
  | needMore => needMore
  | error => error
  | ok value => ok (g value)

/-- Go on with the value of an accepting parser. -/
def andThen (verdict : Verdict α) (next : α → Option (Verdict β)) : Option (Verdict β) :=
  match verdict with
  | needMore => some needMore
  | error => some error
  | ok value => next value

/-- What a settled parser says when more input is there. -/
def extend (t : List β) (verdict : Verdict (α × List β)) : Verdict (α × List β) :=
  verdict.map fun result => (result.1, result.2 ++ t)

end Verdict

/-- The parser, `n` times. -/
def times (parse : σ → Option (Verdict (α × σ))) : Nat → σ → Option (Verdict (List α × σ))
  | 0, s => some (.ok ([], s))
  | n + 1, s => (parse s).bind fun verdict => verdict.andThen fun first =>
      (times parse n first.2).map (Verdict.map fun others => (first.1 :: others.1, others.2))

/-- More input does not change what the parser has said. -/
def Settled (parse : List β → Option (Verdict (α × List β))) : Prop :=
  ∀ u t verdict, parse u = some verdict → verdict ≠ .needMore →
    parse (u ++ t) = some (verdict.extend t)

/-- An accepting parser takes something. -/
def Shrinks (parse : List β → Option (Verdict (α × List β))) : Prop :=
  ∀ u value rest, parse u = some (.ok (value, rest)) → rest.length < u.length

/-- **No part of an accepted input is accepted or rejected**, if all of it was taken. -/
theorem Settled.strict_front {parse : List β → Option (Verdict (α × List β))} (settled : Settled parse)
    {u t : List β} {value : α} (whole : parse (u ++ t) = some (.ok (value, []))) (more : t ≠ [])
    {verdict : Verdict (α × List β)} (said : parse u = some verdict) : verdict = .needMore := by
  by_contra decided
  have still := settled u t verdict said decided
  rw [whole] at still
  cases verdict with
  | needMore => exact decided rfl
  | error => cases still
  | ok result =>
    obtain ⟨-, left⟩ := Prod.mk.inj (Verdict.ok.inj (Option.some.inj still))
    exact more (List.append_eq_nil_iff.mp left.symm).2

section Times

/-- The four ways a repetition goes. -/
theorem times_succ_cases {parse : σ → Option (Verdict (α × σ))} {n : Nat} {s : σ}
    {verdict : Verdict (List α × σ)} (said : times parse (n + 1) s = some verdict) :
    (parse s = some .needMore ∧ verdict = .needMore) ∨ (parse s = some .error ∧ verdict = .error) ∨
      ∃ value next others, parse s = some (.ok (value, next)) ∧ times parse n next = some others ∧
        verdict = others.map fun result => (value :: result.1, result.2) := by
  obtain ⟨first, here, later⟩ := Option.bind_eq_some_iff.mp said
  cases first with
  | needMore =>
    cases later
    exact Or.inl ⟨here, rfl⟩
  | error =>
    cases later
    exact Or.inr (Or.inl ⟨here, rfl⟩)
  | ok result =>
    obtain ⟨others, rest, rfl⟩ := Option.map_eq_some_iff.mp later
    exact Or.inr (Or.inr ⟨result.1, result.2, others, here, rest, rfl⟩)

theorem times_succ_ok {parse : σ → Option (Verdict (α × σ))} (n : Nat) {s next : σ} {value : α}
    (here : parse s = some (.ok (value, next))) : times parse (n + 1) s =
      (times parse n next).map (Verdict.map fun result => (value :: result.1, result.2)) := by
  rw [times, here]
  rfl

/-- **A repetition of a settled parser is settled.** -/
theorem Settled.times {parse : List β → Option (Verdict (α × List β))} (settled : Settled parse) :
    ∀ n, Settled (Lib.times parse n)
  | 0 => by
    intro u t verdict said _
    cases said
    rfl
  | n + 1 => by
    intro u t verdict said decided
    rcases times_succ_cases said with ⟨-, rfl⟩ | ⟨here, rfl⟩ | ⟨value, next, others, here, rest, rfl⟩
    · exact absurd rfl decided
    · have still := settled u t _ here nofun
      rw [Lib.times, still]
      rfl
    · have still := settled u t _ here nofun
      have decidedRest : others ≠ .needMore := fun more => decided (by rw [more]; rfl)
      rw [times_succ_ok n still, settled.times n next t others rest decidedRest, Option.map_some]
      cases others with
      | needMore => rfl
      | error => rfl
      | ok result => rfl

theorem Shrinks.times_le {parse : List β → Option (Verdict (α × List β))} (shrinks : Shrinks parse) :
    ∀ n u values rest, times parse n u = some (.ok (values, rest)) → rest.length ≤ u.length
  | 0, u, _, _, said => by
    cases said
    exact Nat.le_refl _
  | n + 1, u, values, rest, said => by
    rcases times_succ_cases said with ⟨-, same⟩ | ⟨-, same⟩ | ⟨value, next, others, here, later, same⟩
    · cases same
    · cases same
    · cases others with
      | needMore => cases same
      | error => cases same
      | ok result =>
        cases same
        exact Nat.le_trans (shrinks.times_le n next _ _ later) (Nat.le_of_lt (shrinks u value next here))

/-- A repetition returns if the parser does on inputs that are not longer. -/
theorem times_isSome {parse : List β → Option (Verdict (α × List β))} (shrinks : Shrinks parse)
    {bound : Nat} (total : ∀ u, u.length < bound → (parse u).isSome) :
    ∀ n u, u.length < bound → (times parse n u).isSome
  | 0, _, _ => rfl
  | n + 1, u, short => by
    obtain ⟨verdict, here⟩ := Option.isSome_iff_exists.mp (total u short)
    cases verdict with
    | needMore => rw [times, here]; rfl
    | error => rw [times, here]; rfl
    | ok result =>
      rw [times_succ_ok n here, Option.isSome_map]
      exact times_isSome shrinks total n result.2 (Nat.lt_trans (shrinks u _ _ here) short)

/-- A parser that says at least as much. -/
theorem times_mono {parse parse' : σ → Option (Verdict (α × σ))}
    (more : ∀ s verdict, parse s = some verdict → parse' s = some verdict) :
    ∀ n s verdict, times parse n s = some verdict → times parse' n s = some verdict
  | 0, _, _, said => said
  | n + 1, s, verdict, said => by
    rcases times_succ_cases said with ⟨here, rfl⟩ | ⟨here, rfl⟩ | ⟨value, next, others, here, later, rfl⟩
    · rw [times, more s _ here]
      rfl
    · rw [times, more s _ here]
      rfl
    · rw [times_succ_ok n (more s _ here), times_mono more n next others later]
      rfl

end Times

/-- **One parser follows another**: states through `view`, values through `read`. -/
structure Simulates (view : σ → τ) (read : α → γ) (Inv : σ → Prop)
    (parse : σ → Option (Verdict (α × σ))) (spec : τ → Option (Verdict (γ × τ))) : Prop where
  step : ∀ s, Inv s → spec (view s) =
    (parse s).map (Verdict.map fun result => (read result.1, view result.2))
  kept : ∀ s value next, Inv s → parse s = some (.ok (value, next)) → Inv next

theorem Simulates.times {view : σ → τ} {read : α → γ} {Inv : σ → Prop}
    {parse : σ → Option (Verdict (α × σ))} {spec : τ → Option (Verdict (γ × τ))}
    (simulates : Simulates view read Inv parse spec) : ∀ n, Simulates view (List.map read) Inv
      (Lib.times parse n) (Lib.times spec n)
  | 0 => by
    refine ⟨fun s _ => rfl, fun s values next inv said => ?_⟩
    cases said
    exact inv
  | n + 1 => by
    have others := simulates.times n
    refine ⟨fun s inv => ?_, fun s values last inv said => ?_⟩
    · have here := simulates.step s inv
      cases first : parse s with
      | none =>
        rw [first] at here
        rw [Lib.times, Lib.times, first, here]
        rfl
      | some verdict =>
        rw [first] at here
        cases verdict with
        | needMore => rw [Lib.times, Lib.times, first, here]; rfl
        | error => rw [Lib.times, Lib.times, first, here]; rfl
        | ok result =>
          rw [times_succ_ok n here, times_succ_ok n first,
            others.step _ (simulates.kept s _ _ inv first), Option.map_map, Option.map_map]
          congr 1
          funext verdict
          cases verdict with
          | needMore => rfl
          | error => rfl
          | ok result => rfl
    · rcases times_succ_cases said with ⟨-, same⟩ | ⟨-, same⟩ | ⟨value, next, rest, here, later, same⟩
      · cases same
      · cases same
      · cases rest with
        | needMore => cases same
        | error => cases same
        | ok result =>
          cases same
          exact others.kept next _ _ (simulates.kept s _ _ inv here) later

/-! ### Reading until the parser stops -/

/-- The values read from an input, and the input left where more is needed (`none` after an error). -/
inductive Drained (parse : List β → Option (Verdict (α × List β))) :
    List β → List α → Option (List β) → Prop
  | stop {u : List β} : parse u = some .needMore → Drained parse u [] (some u)
  | fail {u : List β} : parse u = some .error → Drained parse u [] none
  | step {u rest : List β} {value : α} {values : List α} {left : Option (List β)} :
      parse u = some (.ok (value, rest)) → Drained parse rest values left →
      Drained parse u (value :: values) left

section Drained

variable {parse : List β → Option (Verdict (α × List β))} {u rest t : List β} {values values' : List α}
  {left left' : Option (List β)}

/-- **Only one thing can be read from an input.** -/
theorem Drained.unique (one : Drained parse u values left) (two : Drained parse u values' left') :
    values = values' ∧ left = left' := by
  induction one generalizing values' with
  | stop here =>
    cases two with
    | stop _ => exact ⟨rfl, rfl⟩
    | fail there => cases here.symm.trans there
    | step there _ => cases here.symm.trans there
  | fail here =>
    cases two with
    | stop there => cases here.symm.trans there
    | fail _ => exact ⟨rfl, rfl⟩
    | step there _ => cases here.symm.trans there
  | step here _ ih =>
    cases two with
    | stop there => cases here.symm.trans there
    | fail there => cases here.symm.trans there
    | step there later =>
      cases here.symm.trans there
      obtain ⟨rfl, rfl⟩ := ih later
      exact ⟨rfl, rfl⟩

theorem Drained.stopped (drained : Drained parse u values left) (stopped : left = some rest) :
    parse rest = some .needMore := by
  induction drained with
  | stop here =>
    cases stopped
    exact here
  | fail _ => cases stopped
  | step _ _ ih => exact ih stopped

/-- **More input continues where the parser stopped.** -/
theorem Drained.append (settled : Settled parse) (first : Drained parse u values left)
    (stopped : left = some rest) (second : Drained parse (rest ++ t) values' left') :
    Drained parse (u ++ t) (values ++ values') left' := by
  induction first with
  | stop here =>
    cases stopped
    exact second
  | fail here => cases stopped
  | step here _ ih => exact .step (settled _ t _ here nofun) (ih stopped)

/-- **After an error more input changes nothing.** -/
theorem Drained.append_error (settled : Settled parse) (first : Drained parse u values left)
    (failed : left = none) (t : List β) : Drained parse (u ++ t) values none := by
  induction first with
  | stop here => cases failed
  | fail here => exact .fail (settled _ t _ here nofun)
  | step here _ ih => exact .step (settled _ t _ here nofun) (ih failed)

end Drained

/-! ### Reading some values -/

/-- The values are read one after the other, and the rest is what is left of the input. -/
inductive Takes (parse : List β → Option (Verdict (α × List β))) :
    List β → List α → List β → Prop
  | nil (u : List β) : Takes parse u [] u
  | cons {u next rest : List β} {value : α} {values : List α} :
      parse u = some (.ok (value, next)) → Takes parse next values rest →
      Takes parse u (value :: values) rest

section Takes

variable {parse : List β → Option (Verdict (α × List β))} {u rest next : List β} {values : List α}

/-- **More input stays behind what was read.** -/
theorem Takes.append (takes : Takes parse u values rest) (settled : Settled parse) (t : List β) :
    Takes parse (u ++ t) values (rest ++ t) := by
  induction takes with
  | nil u => exact .nil (u ++ t)
  | cons here _ ih => exact .cons (settled _ t _ here nofun) ih

/-- One more value is read. -/
theorem Takes.snoc (takes : Takes parse u values rest) {value : α}
    (here : parse rest = some (.ok (value, next))) : Takes parse u (values ++ [value]) next := by
  induction takes with
  | nil u => exact .cons here (.nil next)
  | cons first _ ih => exact .cons first (ih here)

/-- If more input is needed for another value, all values were read. -/
theorem Takes.drained (takes : Takes parse u values rest) (stopped : parse rest = some .needMore) :
    Drained parse u values (some rest) := by
  induction takes with
  | nil u => exact .stop stopped
  | cons here _ ih => exact .step here (ih stopped)

end Takes

end Zedis.Lib

/-
**Runs of a step function whose steps all meet a condition.**

A component is a partial step function `step : σ → ι → Option σ` on its states (`none` where a loop
of the code has not returned). `Run step ok s inputs s'` is a run from `s` to `s'` whose every input
meets `ok` in the state it is taken in; `ok := Always` is an arbitrary run.

* `Run.invariant`: what holds at the start and is kept by every step holds at the end, and
  `Run.history`, the same for what holds of a state and the inputs that led to it;
* `Run.append`, `Run.snoc`, `Run.of_append`: runs are put together and taken apart;
* `Run.mono`: a run whose steps meet a condition meets every weaker one;
* `Run.throughout_iff`: what a step keeps exactly if it meets the condition holds throughout exactly
  the runs that meet it at every step, and `Run.throughout_history_iff`, the same for what is said of
  a state and the inputs so far; the invariant they use need only be kept by steps that meet it;
* `Run.accrues`: what each step only adds to stays empty exactly in the runs whose steps add nothing;
* `Run.latched_iff`: what some steps set and some inputs clear holds in the end exactly if a step has set
  it and no input has cleared it since;
* `replay` computes a run, `Run.of_replay`, `Run.of_guarded` and `Run.replay_eq`.
-/

import Mathlib.Logic.Basic
import Mathlib.Data.List.Basic

namespace Zedis.Lib

variable {σ ι : Type}

/-- The condition every step meets. -/
def Always (_ : σ) (_ : ι) : Prop := True

/-- **A run whose steps all meet `ok`.** -/
inductive Run (step : σ → ι → Option σ) (ok : σ → ι → Prop) : σ → List ι → σ → Prop
  | nil (s : σ) : Run step ok s [] s
  | cons {s next last : σ} {input : ι} {inputs : List ι} :
      ok s input → step s input = some next → Run step ok next inputs last →
      Run step ok s (input :: inputs) last

namespace Run

variable {step : σ → ι → Option σ} {ok weaker : σ → ι → Prop}

/-- **The invariant rule.** -/
theorem invariant {s last : σ} {inputs : List ι} (run : Run step ok s inputs last)
    (Inv : σ → Prop)
    (kept : ∀ s input next, Inv s → ok s input → step s input = some next → Inv next)
    (start : Inv s) : Inv last := by
  induction run with
  | nil s => exact start
  | cons met taken _ ih => exact ih (kept _ _ _ start met taken)

/-- **The invariant rule with the inputs so far.** -/
theorem history {s last : σ} {inputs : List ι} (run : Run step ok s inputs last)
    (Inv : List ι → σ → Prop)
    (kept : ∀ past s input next, Inv past s → ok s input → step s input = some next →
      Inv (past ++ [input]) next) {past : List ι} (start : Inv past s) : Inv (past ++ inputs) last := by
  induction run generalizing past with
  | nil s =>
    rw [List.append_nil]
    exact start
  | cons met taken _ ih =>
    rw [List.append_cons]
    exact ih (kept _ _ _ _ start met taken)

theorem append {s middle last : σ} {first second : List ι} (one : Run step ok s first middle)
    (two : Run step ok middle second last) : Run step ok s (first ++ second) last := by
  induction one with
  | nil s => exact two
  | cons met taken _ ih => exact .cons met taken (ih two)

theorem of_append {s last : σ} {first second : List ι} (run : Run step ok s (first ++ second) last) :
    ∃ middle, Run step ok s first middle ∧ Run step ok middle second last := by
  induction first generalizing s with
  | nil => exact ⟨s, .nil s, run⟩
  | cons input first ih =>
    cases run with
    | cons met taken rest =>
      obtain ⟨middle, one, two⟩ := ih rest
      exact ⟨middle, .cons met taken one, two⟩

theorem snoc {s middle last : σ} {inputs : List ι} {input : ι} (run : Run step ok s inputs middle)
    (met : ok middle input) (taken : step middle input = some last) :
    Run step ok s (inputs ++ [input]) last :=
  run.append (.cons met taken (.nil last))

theorem mono (sub : ∀ s input, ok s input → weaker s input) {s last : σ} {inputs : List ι}
    (run : Run step ok s inputs last) : Run step weaker s inputs last := by
  induction run with
  | nil s => exact .nil s
  | cons met taken _ ih => exact .cons (sub _ _ met) taken ih

/-- **The exact rule with the inputs so far.** -/
theorem throughout_history_iff (Inv P : List ι → σ → Prop)
    (kept : ∀ past s input next, Inv past s → ok s input → step s input = some next →
      Inv (past ++ [input]) next)
    (sharp : ∀ past s input next, Inv past s → P past s → step s input = some next →
      (P (past ++ [input]) next ↔ ok s input))
    {s last : σ} {inputs : List ι} (run : Run step Always s inputs last) :
    ∀ past : List ι, Inv past s → P past s →
      ((∀ n middle, Run step Always s (inputs.take n) middle → P (past ++ inputs.take n) middle) ↔
        Run step ok s inputs last) := by
  induction run with
  | nil s =>
    intro past _ start
    refine ⟨fun _ => .nil s, fun _ n middle part => ?_⟩
    rw [List.take_nil] at part ⊢
    cases part
    rw [List.append_nil]
    exact start
  | @cons s next last input inputs _ taken _ ih =>
    intro past inv start
    have now := sharp past s input next inv start taken
    have later := fun met => ih _ (kept past s input next inv met taken)
    constructor
    · intro all
      have first : P (past ++ [input]) next := all 1 next (.cons trivial taken (.nil next))
      have safe := now.mp first
      refine .cons safe taken ((later safe first).mp fun n middle part => ?_)
      rw [List.append_assoc]
      exact all (n + 1) middle (.cons trivial taken part)
    · intro met n middle part
      cases met with
      | cons safe again rest =>
        cases again.symm.trans taken
        have first := now.mpr safe
        cases n with
        | zero =>
          cases part
          rw [List.take_zero, List.append_nil]
          exact start
        | succ n =>
          cases part with
          | cons _ same part =>
            cases same.symm.trans taken
            have held := (later safe first).mpr rest n middle part
            rwa [List.append_assoc] at held

/-- **The exact rule.** -/
theorem throughout_iff (Inv P : σ → Prop)
    (kept : ∀ s input next, Inv s → ok s input → step s input = some next → Inv next)
    (sharp : ∀ s input next, Inv s → P s → step s input = some next → (P next ↔ ok s input))
    {s last : σ} {inputs : List ι} (run : Run step Always s inputs last) (inv : Inv s) (start : P s) :
    (∀ n middle, Run step Always s (inputs.take n) middle → P middle) ↔ Run step ok s inputs last :=
  run.throughout_history_iff (fun _ => Inv) (fun _ => P) (fun _ => kept) (fun _ => sharp)
    [] inv start

/-- **The ledger rule**: where each step adds to what is held, and adds nothing exactly if it meets the
condition as long as nothing is held, nothing is held in the end exactly if every step has met it. -/
theorem accrues {γ : Type} (Holds : σ → List γ → Prop)
    (adds : ∀ s held input next, Holds s held → step s input = some next →
      ∃ more, Holds next (more ++ held) ∧ (held = [] → (more = [] ↔ ok s input)))
    {s last : σ} {inputs : List ι} (run : Run step Always s inputs last) :
    ∀ {held : List γ}, Holds s held →
      ∃ more, Holds last (more ++ held) ∧ (held = [] → (more = [] ↔ Run step ok s inputs last)) := by
  induction run with
  | nil s => exact fun holds => ⟨[], holds, fun _ => iff_of_true rfl (.nil s)⟩
  | @cons s next last input inputs _ taken _ ih =>
    intro held holds
    obtain ⟨first, holdsNext, now⟩ := adds s held input next holds taken
    obtain ⟨rest, holdsLast, later⟩ := ih holdsNext
    refine ⟨rest ++ first, by rw [List.append_assoc]; exact holdsLast, fun none => ?_⟩
    subst none
    rw [List.append_eq_nil_iff]
    constructor
    · rintro ⟨noRest, rfl⟩
      exact .cons ((now rfl).mp rfl) taken ((later rfl).mp noRest)
    · intro met
      cases met with
      | cons safe again rest =>
        cases again.symm.trans taken
        obtain rfl := (now rfl).mpr safe
        exact ⟨(later rfl).mpr rest, rfl⟩

/-- **The latch rule**, from any start. -/
theorem latched (Inv F : σ → Prop) (sets : σ → ι → Prop) (clears : ι → Prop)
    (kept : ∀ s input next, Inv s → step s input = some next → Inv next)
    (rule : ∀ s input next, Inv s → step s input = some next →
      (F next ↔ sets s input ∨ F s ∧ ¬ clears input))
    {s last : σ} {inputs : List ι} (run : Run step Always s inputs last) (inv : Inv s) :
    F last ↔ (F s ∧ ∀ input ∈ inputs, ¬ clears input) ∨
      ∃ past input later middle next, inputs = past ++ input :: later ∧
        Run step Always s past middle ∧ sets middle input ∧ step middle input = some next ∧
        Run step Always next later last ∧ ∀ input ∈ later, ¬ clears input := by
  induction run with
  | nil s =>
    refine ⟨fun holds => Or.inl ⟨holds, fun _ member => by cases member⟩, ?_⟩
    rintro (⟨holds, -⟩ | ⟨past, input, later, _, _, split, -⟩)
    · exact holds
    · cases past with
      | nil => cases split
      | cons _ _ => cases split
  | @cons s next last input inputs _ taken rest ih =>
    rw [ih (kept s input next inv taken)]
    have now := rule s input next inv taken
    constructor
    · rintro (⟨holds, uncleared⟩ | ⟨past, event, later, middle, after, rfl, first, isSet, took, second, since⟩)
      · rcases now.mp holds with isSet | ⟨held, notCleared⟩
        · exact Or.inr ⟨[], input, inputs, s, next, rfl, .nil s, isSet, taken, rest, uncleared⟩
        · refine Or.inl ⟨held, fun event member => ?_⟩
          rcases List.mem_cons.mp member with rfl | later
          · exact notCleared
          · exact uncleared event later
      · exact Or.inr ⟨input :: past, event, later, middle, after, rfl, .cons trivial taken first, isSet,
          took, second, since⟩
    · rintro (⟨held, uncleared⟩ | ⟨past, event, later, middle, after, split, first, isSet, took, second, since⟩)
      · refine Or.inl ⟨now.mpr (Or.inr ⟨held, uncleared input List.mem_cons_self⟩), ?_⟩
        exact fun event member => uncleared event (List.mem_cons_of_mem _ member)
      · cases past with
        | nil =>
          cases split
          cases first
          cases took.symm.trans taken
          exact Or.inl ⟨now.mpr (Or.inl isSet), since⟩
        | cons other past =>
          cases split
          cases first with
          | cons _ again first =>
            cases again.symm.trans taken
            exact Or.inr ⟨past, event, later, middle, after, rfl, first, isSet, took, second, since⟩

/-- **The latch rule.** -/
theorem latched_iff (Inv F : σ → Prop) (sets : σ → ι → Prop) (clears : ι → Prop)
    (kept : ∀ s input next, Inv s → step s input = some next → Inv next)
    (rule : ∀ s input next, Inv s → step s input = some next →
      (F next ↔ sets s input ∨ F s ∧ ¬ clears input))
    {s last : σ} {inputs : List ι} (run : Run step Always s inputs last) (inv : Inv s) (start : ¬ F s) :
    F last ↔ ∃ past input later middle next, inputs = past ++ input :: later ∧
      Run step Always s past middle ∧ sets middle input ∧ step middle input = some next ∧
      Run step Always next later last ∧ ∀ input ∈ later, ¬ clears input := by
  rw [run.latched Inv F sets clears kept rule inv]
  exact or_iff_right fun held => start held.1

end Run

/-- Take the inputs one after the other. -/
def replay (step : σ → ι → Option σ) : σ → List ι → Option σ
  | s, [] => some s
  | s, input :: inputs => (step s input).bind fun next => replay step next inputs

/-- **A replay that returns is a run.** -/
theorem Run.of_replay {step : σ → ι → Option σ} {ok : σ → ι → Prop} {inputs : List ι}
    (met : ∀ s, ∀ input ∈ inputs, ok s input) :
    ∀ {s last : σ}, replay step s inputs = some last → Run step ok s inputs last := by
  induction inputs with
  | nil =>
    intro s last returned
    cases returned
    exact .nil s
  | cons input inputs ih =>
    intro s last returned
    obtain ⟨next, taken, rest⟩ := Option.bind_eq_some_iff.mp returned
    exact .cons (met s input List.mem_cons_self) taken
      (ih (fun s later member => met s later (List.mem_cons_of_mem _ member)) rest)

/-- A replay that checks the condition at every step. -/
theorem Run.of_guarded {step : σ → ι → Option σ} {ok : σ → ι → Prop}
    [∀ s input, Decidable (ok s input)] {inputs : List ι} : ∀ {s last : σ},
    replay (fun s input => if ok s input then step s input else none) s inputs = some last →
      Run step ok s inputs last := by
  induction inputs with
  | nil =>
    intro s last returned
    cases returned
    exact .nil s
  | cons input inputs ih =>
    intro s last returned
    obtain ⟨next, taken, rest⟩ := Option.bind_eq_some_iff.mp returned
    obtain ⟨met, taken⟩ := Option.ite_none_right_eq_some.mp taken
    exact .cons met taken (ih rest)

theorem Run.replay_eq {step : σ → ι → Option σ} {ok : σ → ι → Prop} {s last : σ} {inputs : List ι}
    (run : Run step ok s inputs last) : replay step s inputs = some last := by
  induction run with
  | nil s => rfl
  | cons _ taken _ ih => rw [replay, taken, Option.bind_some, ih]

end Zedis.Lib

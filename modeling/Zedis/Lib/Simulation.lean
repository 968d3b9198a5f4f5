/-
**Refinement of a specification by a component, and comparison of two runs.**

A specification is a relation `spec a asked answered b`: in the abstract state `a`, what was asked may be
answered so, and `b` is the next state. `Behaves spec a exchanges b` is a sequence of such exchanges. A
component is a step function as in `Run`, and `observed step observe s inputs` is what its run from `s`
shows.

* `Run.refines`: if every step is matched by exchanges that the specification allows, between related
  states, then so is every run;
* `Run.unwinds`: if, where the condition of the runs is met, the inputs that do not count keep two states
  alike and show nothing, and an input that counts keeps them alike and shows the same in both, then two
  runs with the same inputs that count show the same.
-/

import Zedis.Lib.Run

namespace Zedis.Lib

variable {σ ι α κ ο : Type}

/-- **A sequence of exchanges that a specification allows.** -/
inductive Behaves (spec : α → κ → ο → α → Prop) : α → List (κ × ο) → α → Prop
  | nil (a : α) : Behaves spec a [] a
  | cons {a b last : α} {asked : κ} {answered : ο} {rest : List (κ × ο)} :
      spec a asked answered b → Behaves spec b rest last →
      Behaves spec a ((asked, answered) :: rest) last

theorem Behaves.append {spec : α → κ → ο → α → Prop} {a b last : α} {first second : List (κ × ο)}
    (one : Behaves spec a first b) (two : Behaves spec b second last) :
    Behaves spec a (first ++ second) last := by
  induction one with
  | nil a => exact two
  | cons allowed _ ih => exact .cons allowed (ih two)

theorem Behaves.single {spec : α → κ → ο → α → Prop} {a b : α} {asked : κ} {answered : ο}
    (allowed : spec a asked answered b) : Behaves spec a [(asked, answered)] b :=
  .cons allowed (.nil b)

/-- What the run of some inputs shows; `observe s input next` is what one step does. -/
def observed {γ : Type} (step : σ → ι → Option σ) (observe : σ → ι → σ → List γ) : σ → List ι → List γ
  | _, [] => []
  | s, input :: inputs =>
    match step s input with
    | none => []
    | some next => observe s input next ++ observed step observe next inputs

section Runs

variable {γ : Type} {step : σ → ι → Option σ} {ok : σ → ι → Prop}

theorem observed_cons {observe : σ → ι → σ → List γ} {s next : σ} {input : ι} (inputs : List ι)
    (taken : step s input = some next) : observed step observe s (input :: inputs) =
      observe s input next ++ observed step observe next inputs := by
  simp only [observed, taken]

/-- **The refinement rule.** -/
theorem Run.refines {spec : α → κ → ο → α → Prop} {observe : σ → ι → σ → List (κ × ο)}
    (Rel : σ → α → Prop)
    (matched : ∀ s a input next, Rel s a → ok s input → step s input = some next →
      ∃ b, Behaves spec a (observe s input next) b ∧ Rel next b)
    {s last : σ} {inputs : List ι} (run : Run step ok s inputs last) {a : α} (start : Rel s a) :
    ∃ b, Behaves spec a (observed step observe s inputs) b ∧ Rel last b := by
  induction run generalizing a with
  | nil s => exact ⟨a, .nil a, start⟩
  | @cons s next last input inputs met taken _ ih =>
    obtain ⟨middle, first, related⟩ := matched s a input next start met taken
    obtain ⟨b, rest, end_⟩ := ih related
    rw [observed_cons inputs taken]
    exact ⟨b, first.append rest, end_⟩

/-- **The rule for two runs.** `counts input` is what an input is as far as it counts. -/
structure Unwinding (step : σ → ι → Option σ) (ok : σ → ι → Prop) (observe : σ → ι → σ → List γ)
    (counts : ι → Option κ) (Alike : σ → σ → Prop) : Prop where
  symm : ∀ s t, Alike s t → Alike t s
  trans : ∀ s t u, Alike s t → Alike t u → Alike s u
  aside : ∀ s input next, counts input = none → ok s input → step s input = some next →
    Alike s next ∧ observe s input next = []
  together : ∀ s t input input' next next', Alike s t → counts input = counts input' →
    counts input ≠ none → ok s input → ok t input' → step s input = some next →
    step t input' = some next' → Alike next next' ∧ observe s input next = observe t input' next'

/-- What does not count leaves no trace. -/
theorem Unwinding.silent {observe : σ → ι → σ → List γ} {counts : ι → Option κ} {Alike : σ → σ → Prop}
    (rules : Unwinding step ok observe counts Alike) {s last : σ} {inputs : List ι}
    (run : Run step ok s inputs last) (none : inputs.filterMap counts = []) (same : Alike s s) :
    Alike s last ∧ observed step observe s inputs = [] := by
  induction run with
  | nil s => exact ⟨same, rfl⟩
  | @cons s next last input inputs met taken _ ih =>
    rw [List.filterMap_cons] at none
    cases counted : counts input with
    | some k =>
      rw [counted] at none
      cases none
    | none =>
      rw [counted] at none
      obtain ⟨alike, shows⟩ := rules.aside s input next counted met taken
      have again := rules.trans _ _ _ (rules.symm _ _ alike) alike
      obtain ⟨later, nothing⟩ := ih none again
      rw [observed_cons inputs taken, shows, nothing]
      exact ⟨rules.trans _ _ _ alike later, rfl⟩

/-- **Two runs whose inputs that count are the same show the same.** -/
theorem Run.unwinds {observe : σ → ι → σ → List γ} {counts : ι → Option κ} {Alike : σ → σ → Prop}
    (rules : Unwinding step ok observe counts Alike) {s last : σ} {inputs : List ι}
    (run : Run step ok s inputs last) :
    ∀ {t last' : σ} {inputs' : List ι}, Run step ok t inputs' last' → Alike s t →
      inputs.filterMap counts = inputs'.filterMap counts →
      Alike last last' ∧ observed step observe s inputs = observed step observe t inputs' := by
  induction run with
  | nil s =>
    intro t last' inputs' other alike same
    obtain ⟨later, nothing⟩ := rules.silent other same.symm
      (rules.trans _ _ _ (rules.symm _ _ alike) alike)
    exact ⟨rules.trans _ _ _ alike later, nothing.symm⟩
  | @cons s next last input inputs met taken _ ih =>
    intro t last' inputs' other alike same
    rw [List.filterMap_cons] at same
    cases counted : counts input with
    | none =>
      rw [counted] at same
      obtain ⟨kept, shows⟩ := rules.aside s input next counted met taken
      rw [observed_cons inputs taken, shows, List.nil_append]
      exact ih other (rules.trans _ _ _ (rules.symm _ _ kept) alike) same
    | some k =>
      rw [counted] at same
      -- skip what does not count in the other run, up to the same input
      induction other with
      | nil t => cases same
      | @cons t next' last' input' inputs' met' taken' rest skip =>
        rw [List.filterMap_cons] at same
        cases counted' : counts input' with
        | none =>
          rw [counted'] at same
          obtain ⟨kept, shows⟩ := rules.aside t input' next' counted' met' taken'
          rw [observed_cons inputs' taken', shows, List.nil_append]
          exact skip (rules.trans _ _ _ alike kept) same
        | some k' =>
          rw [counted'] at same
          obtain ⟨sameFirst, sameRest⟩ := List.cons.inj same
          have both : counts input = counts input' := by rw [counted, counted', sameFirst]
          obtain ⟨alikeNext, shows⟩ := rules.together s t input input' next next' alike both
            (by rw [counted]; exact Option.some_ne_none k) met met' taken taken'
          obtain ⟨end_, later⟩ := ih rest alikeNext sameRest
          rw [observed_cons inputs taken, observed_cons inputs' taken', shows, later]
          exact ⟨end_, rfl⟩

end Runs

end Zedis.Lib

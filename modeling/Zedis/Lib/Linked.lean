/-
**Singly linked cells.**

`next` gives the link of each cell, `head` the first cell. `Listed next head cells`: the links visit
exactly these cells, in order, and then end; `Linked next head c`: the links come to `c`.

* `Listed.linked_iff`: the cells the links come to are those of the list;
* `Listed.congr`, `Listed.update`: links of other cells do not matter.
-/

import Mathlib.Data.List.Nodup
import Mathlib.Logic.Function.Basic

namespace Zedis.Lib

variable {α : Type} {next next' : α → Option α} {head : Option α} {cells : List α}

/-- **The linked list from `head`.** -/
def Listed (next : α → Option α) : Option α → List α → Prop
  | head, [] => head = none
  | head, cell :: cells => head = some cell ∧ Listed next (next cell) cells

/-- The links from `head` come to a cell. -/
inductive Linked (next : α → Option α) (head : Option α) : α → Prop
  | first {cell : α} : head = some cell → Linked next head cell
  | link {cell later : α} : Linked next head cell → next cell = some later → Linked next head later

theorem Listed.congr (same : ∀ c ∈ cells, next' c = next c) (listed : Listed next head cells) :
    Listed next' head cells := by
  induction cells generalizing head with
  | nil => exact listed
  | cons cell cells ih =>
    refine ⟨listed.1, ?_⟩
    rw [same cell List.mem_cons_self]
    exact ih (fun c member => same c (List.mem_cons_of_mem _ member)) listed.2

/-- The links visit one list only. -/
theorem Listed.unique {others : List α} (listed : Listed next head cells)
    (again : Listed next head others) : cells = others := by
  induction cells generalizing head others with
  | nil =>
    cases others with
    | nil => rfl
    | cons _ _ => cases (listed : head = none).symm.trans again.1
  | cons cell cells ih =>
    cases others with
    | nil => cases (again : head = none).symm.trans listed.1
    | cons other others =>
      cases listed.1.symm.trans again.1
      rw [ih listed.2 again.2]

theorem Listed.update [DecidableEq α] {cell : α} (outside : cell ∉ cells) (link : Option α)
    (listed : Listed next head cells) : Listed (Function.update next cell link) head cells :=
  listed.congr fun _ member => Function.update_of_ne (ne_of_mem_of_not_mem member outside) _ _

theorem Listed.mem_of_link (listed : Listed next head cells) {cell later : α} (member : cell ∈ cells)
    (link : next cell = some later) : later ∈ cells := by
  induction cells generalizing head with
  | nil => exact absurd member List.not_mem_nil
  | cons first cells ih =>
    rcases List.mem_cons.mp member with rfl | rest
    · have listed := listed.2
      rw [link] at listed
      cases cells with
      | nil => cases listed
      | cons second cells =>
        rw [Option.some.inj listed.1]
        exact List.mem_cons_of_mem _ List.mem_cons_self
    · exact List.mem_cons_of_mem _ (ih listed.2 rest)

/-- No cell links to itself. -/
theorem Listed.next_ne (listed : Listed next head cells) (nodup : cells.Nodup) {cell : α}
    (member : cell ∈ cells) : next cell ≠ some cell := by
  induction cells generalizing head with
  | nil => exact absurd member List.not_mem_nil
  | cons first cells ih =>
    obtain ⟨notLater, nodup⟩ := List.nodup_cons.mp nodup
    rcases List.mem_cons.mp member with rfl | rest
    · intro self
      have listed := listed.2
      rw [self] at listed
      cases cells with
      | nil => cases listed
      | cons second cells =>
        cases listed.1
        exact notLater List.mem_cons_self
    · exact ih listed.2 nodup rest

theorem Linked.through {cell later : α} (linked : Linked next head cell)
    (onward : Linked next (next cell) later) : Linked next head later := by
  induction onward with
  | first isNext => exact linked.link isNext
  | link _ link ih => exact ih.link link

/-- **The cells of the list are those the links come to.** -/
theorem Listed.linked_iff (listed : Listed next head cells) {cell : α} :
    Linked next head cell ↔ cell ∈ cells := by
  constructor
  · intro linked
    induction linked with
    | first isHead =>
      cases cells with
      | nil => cases (listed : head = none).symm.trans isHead
      | cons first cells =>
        rw [Option.some.inj (listed.1.symm.trans isHead)]
        exact List.mem_cons_self
    | link _ link ih => exact listed.mem_of_link ih link
  · intro member
    induction cells generalizing head with
    | nil => exact absurd member List.not_mem_nil
    | cons first cells ih =>
      rcases List.mem_cons.mp member with rfl | rest
      · exact .first listed.1
      · exact Linked.through (.first listed.1) (ih listed.2 rest)

end Zedis.Lib

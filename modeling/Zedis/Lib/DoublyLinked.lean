/-
**Doubly linked cells.**

`next` and `prev` give the two links of each cell. `DoublyListed next prev before head cells`: from `head`
on the links visit exactly these cells and then end, and each cell links back to the one before it, the
first one to `before`.

* `DoublyListed.next_iff_prev`: the two links are inverse to each other;
* `DoublyListed.push`: a new cell in front;
* `DoublyListed.erase`: a cell is taken out by linking its two neighbours to each other.
-/

import Zedis.Lib.Linked

namespace Zedis.Lib

variable {α : Type} {next next' prev prev' : α → Option α} {before head : Option α} {cells : List α}

/-- **The doubly linked list from `head`**, which comes after `before`. -/
def DoublyListed (next prev : α → Option α) : Option α → Option α → List α → Prop
  | _, head, [] => head = none
  | before, head, cell :: cells =>
    head = some cell ∧ prev cell = before ∧ DoublyListed next prev (some cell) (next cell) cells

namespace DoublyListed

theorem listed (list : DoublyListed next prev before head cells) : Listed next head cells := by
  induction cells generalizing before head with
  | nil => exact list
  | cons cell cells ih => exact ⟨list.1, ih list.2.2⟩

theorem congr (sameNext : ∀ c ∈ cells, next' c = next c) (samePrev : ∀ c ∈ cells, prev' c = prev c)
    (list : DoublyListed next prev before head cells) : DoublyListed next' prev' before head cells := by
  induction cells generalizing before head with
  | nil => exact list
  | cons cell cells ih =>
    obtain ⟨isHead, back, rest⟩ := list
    refine ⟨isHead, (samePrev cell List.mem_cons_self).trans back, ?_⟩
    rw [sameNext cell List.mem_cons_self]
    exact ih (fun c member => sameNext c (List.mem_cons_of_mem _ member))
      (fun c member => samePrev c (List.mem_cons_of_mem _ member)) rest

theorem head_mem {cell : α} (list : DoublyListed next prev before (some cell) cells) :
    ∃ rest, cells = cell :: rest ∧ prev cell = before := by
  cases cells with
  | nil => cases list
  | cons first rest =>
    obtain ⟨isHead, back, -⟩ := list
    cases isHead
    exact ⟨rest, rfl, back⟩

/-- A cell that follows links back. -/
theorem mem_of_next {cell later : α} (list : DoublyListed next prev before head cells)
    (member : cell ∈ cells) (link : next cell = some later) : later ∈ cells ∧ prev later = some cell := by
  induction cells generalizing before head with
  | nil => exact absurd member List.not_mem_nil
  | cons first cells ih =>
    obtain ⟨-, -, rest⟩ := list
    rcases List.mem_cons.mp member with rfl | inRest
    · rw [link] at rest
      obtain ⟨others, rfl, back⟩ := rest.head_mem
      exact ⟨List.mem_cons_of_mem _ List.mem_cons_self, back⟩
    · obtain ⟨inside, back⟩ := ih rest inRest
      exact ⟨List.mem_cons_of_mem _ inside, back⟩

/-- A cell that is linked back to links forward, unless it is outside the list and links to its head. -/
theorem mem_of_prev {cell earlier : α} (list : DoublyListed next prev before head cells)
    (member : cell ∈ cells) (link : prev cell = some earlier) :
    (earlier ∈ cells ∧ next earlier = some cell) ∨ (before = some earlier ∧ head = some cell) := by
  induction cells generalizing before head with
  | nil => exact absurd member List.not_mem_nil
  | cons first cells ih =>
    obtain ⟨isHead, back, rest⟩ := list
    rcases List.mem_cons.mp member with rfl | inRest
    · exact Or.inr ⟨back.symm.trans link, isHead⟩
    · rcases ih rest inRest with ⟨inside, forward⟩ | ⟨isFirst, forward⟩
      · exact Or.inl ⟨List.mem_cons_of_mem _ inside, forward⟩
      · cases isFirst
        exact Or.inl ⟨List.mem_cons_self, forward⟩

/-- **The two links are inverse to each other.** -/
theorem next_iff_prev {cell other : α} (list : DoublyListed next prev none head cells)
    (member : cell ∈ cells) (member' : other ∈ cells) :
    next cell = some other ↔ prev other = some cell := by
  refine ⟨fun link => (list.mem_of_next member link).2, fun link => ?_⟩
  rcases list.mem_of_prev member' link with ⟨-, forward⟩ | ⟨outside, -⟩
  · exact forward
  · cases outside

/-- In a list that comes after a cell every cell links back. -/
theorem prev_ne_none {cell earlier : α} (list : DoublyListed next prev (some earlier) head cells)
    (member : cell ∈ cells) : prev cell ≠ none := by
  induction cells generalizing earlier head with
  | nil => exact absurd member List.not_mem_nil
  | cons first cells ih =>
    obtain ⟨-, back, rest⟩ := list
    rcases List.mem_cons.mp member with rfl | inRest
    · rw [back]
      exact Option.some_ne_none earlier
    · exact ih rest inRest

/-- The cell without one before it is the head. -/
theorem prev_none_iff {cell : α} (list : DoublyListed next prev none head cells)
    (member : cell ∈ cells) : prev cell = none ↔ head = some cell := by
  constructor
  · intro first
    cases cells with
    | nil => exact absurd member List.not_mem_nil
    | cons other cells =>
      obtain ⟨isHead, -, rest⟩ := list
      rcases List.mem_cons.mp member with rfl | inRest
      · exact isHead
      · exact absurd first (rest.prev_ne_none inRest)
  · intro isHead
    rw [isHead] at list
    obtain ⟨-, -, back⟩ := list.head_mem
    exact back

/-- **A new cell in front.** -/
theorem push {cell : α} (list : DoublyListed next prev none head cells) (outside : cell ∉ cells)
    (forward : next' cell = head) (sameNext : ∀ c ∈ cells, next' c = next c)
    (back : prev' cell = none) (backHead : ∀ h ∈ head, prev' h = some cell)
    (samePrev : ∀ c, c ≠ cell → c ∉ head → prev' c = prev c) (nodup : cells.Nodup) :
    DoublyListed next' prev' none (some cell) (cell :: cells) := by
  refine ⟨rfl, back, ?_⟩
  rw [forward]
  cases cells with
  | nil => exact list
  | cons first cells =>
    obtain ⟨isHead, -, rest⟩ := list
    obtain ⟨notLater, -⟩ := List.nodup_cons.mp nodup
    refine ⟨isHead, backHead first isHead, ?_⟩
    rw [sameNext first List.mem_cons_self]
    refine rest.congr (fun c member => sameNext c (List.mem_cons_of_mem _ member)) fun c member => ?_
    refine samePrev c (fun same => outside (same ▸ List.mem_cons_of_mem _ member)) fun isFirst => ?_
    cases isHead.symm.trans isFirst
    exact notLater member

section Remove

variable {cell : α} (forward : ∀ c ∈ prev cell, next' c = next cell)
  (sameNext : ∀ c, c ∉ prev cell → next' c = next c)
  (backward : ∀ c ∈ next cell, prev' c = prev cell)
  (samePrev : ∀ c, c ∉ next cell → prev' c = prev c)
include forward sameNext backward samePrev

/-- The cells before the one that is taken out stay where they are. -/
theorem remove {front back : List α} :
    ∀ {before head}, DoublyListed next prev before head (front ++ cell :: back) →
      (front ++ cell :: back).Nodup → (∀ c ∈ before, c ∉ front ++ cell :: back) →
      ∃ head', DoublyListed next' prev' before head' (front ++ back) ∧
        (front = [] → head' = next cell) ∧ (front ≠ [] → head' = head) := by
  induction front with
  | nil =>
    intro before head list nodup fresh
    obtain ⟨-, isBefore, rest⟩ := list
    obtain ⟨-, nodup⟩ := List.nodup_cons.mp nodup
    refine ⟨next cell, ?_, fun _ => rfl, fun nonempty => absurd rfl nonempty⟩
    have outside : ∀ c ∈ back, c ∉ prev cell := by
      intro c member isBefore'
      rw [isBefore] at isBefore'
      exact fresh c isBefore' (List.mem_cons_of_mem _ member)
    cases back with
    | nil => exact rest
    | cons first back =>
      obtain ⟨isNext, -, rest⟩ := rest
      refine ⟨isNext, (backward first isNext).trans isBefore, ?_⟩
      rw [sameNext first (outside first List.mem_cons_self)]
      refine rest.congr (fun c member => sameNext c (outside c (List.mem_cons_of_mem _ member)))
        fun c member => samePrev c fun isFirst => ?_
      cases isNext.symm.trans isFirst
      exact (List.nodup_cons.mp nodup).1 member
  | cons first front ih =>
    intro before head list nodup fresh
    obtain ⟨isHead, isBefore, rest⟩ := list
    obtain ⟨notLater, nodup⟩ := List.nodup_cons.mp nodup
    have inRest : cell ∈ front ++ cell :: back := List.mem_append_right _ List.mem_cons_self
    obtain ⟨head', list', atFront, inside⟩ := ih rest nodup fun c isFirst => by
      cases isFirst
      exact notLater
    -- the first cell is not after the one that is taken out
    have notAfter : first ∉ next cell := fun isNext => notLater (rest.mem_of_next inRest isNext).1
    refine ⟨some first, ⟨rfl, (samePrev first notAfter).trans isBefore, ?_⟩,
      fun empty => absurd empty (List.cons_ne_nil _ _), fun _ => isHead.symm⟩
    have isNext : next' first = head' := by
      cases front with
      | nil =>
        obtain ⟨-, isPrev, -⟩ := rest
        rw [atFront rfl, forward first isPrev]
      | cons second front =>
        rw [inside (List.cons_ne_nil _ _)]
        refine sameNext first fun isPrev => ?_
        rcases rest.mem_of_prev inRest isPrev with ⟨member, -⟩ | ⟨-, isNext⟩
        · exact notLater member
        · cases rest.1.symm.trans isNext
          exact (List.nodup_cons.mp nodup).1 (List.mem_append_right _ List.mem_cons_self)
    rw [isNext]
    exact list'

/-- **A cell is taken out** if the cell before it gets its `next` and the cell after it its `prev`. -/
theorem erase [DecidableEq α] (list : DoublyListed next prev none head cells) (nodup : cells.Nodup)
    (member : cell ∈ cells) :
    ∃ head', DoublyListed next' prev' none head' (cells.erase cell) ∧
      (prev cell = none → head' = next cell) ∧ (prev cell ≠ none → head' = head) := by
  have isHead := list.prev_none_iff member
  obtain ⟨front, back, notFront, split, erased⟩ := List.exists_erase_eq member
  subst split
  obtain ⟨head', without, atFront, inside⟩ :=
    list.remove forward sameNext backward samePrev nodup fun c absent => by cases absent
  rw [erased]
  refine ⟨head', without, fun isFirst => ?_, fun later => ?_⟩
  · cases front with
    | nil => exact atFront rfl
    | cons first front =>
      cases (isHead.mp isFirst).symm.trans list.1
      exact absurd List.mem_cons_self notFront
  · cases front with
    | nil => exact absurd (isHead.mpr list.1) later
    | cons first front => exact inside (List.cons_ne_nil _ _)

end Remove

end DoublyListed

end Zedis.Lib

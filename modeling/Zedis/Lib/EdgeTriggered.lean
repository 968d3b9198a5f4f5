/-
**Edge-triggered notification.**

A notifier watches some sources. A source that becomes ready is queued once; the queued sources are
handed out in batches, and the program attends to those of a batch one after the other. A source that
is handed out is not queued again because it still is ready: the program must go on until it is not, or
ask for it to be polled again.

* `Notifier.Awake kept`: of the sources in `kept`, each one that is watched and ready is queued, handed
  out or attended to. One lemma for each operation says when it stays so;
* `Notifier.Forgotten`: the program has left a source that is ready, and the notifier does not know.
  Nothing but a new edge, or a poll, of this source changes that.
-/

import Mathlib.Data.List.Nodup
import Mathlib.Logic.Function.Basic

namespace Zedis.Lib

/-- **A notifier**: the sources it watches, those that are ready, those that are queued, those that are
handed out and wait for their turn, and the one that is attended to. -/
@[ext]
structure Notifier (α : Type) where
  watched : α → Bool
  ready : α → Bool
  queued : α → Bool
  batch : List α
  attended : Option α

namespace Notifier

variable {α : Type} {n : Notifier α} {kept : α → Prop} {a : α}

/-! ### Operations -/

section Operations

/-- The turn of the next source. -/
def attends (n : Notifier α) (a : α) (rest : List α) : Notifier α :=
  { n with batch := rest, attended := some a }

/-- The program leaves the source that it attends to. -/
def leaves (n : Notifier α) : Notifier α := { n with attended := none }

variable [DecidableEq α]

/-- A watched source is queued. -/
def signals (n : Notifier α) (a : α) : Notifier α :=
  { n with queued := Function.update n.queued a (n.queued a || n.watched a) }

/-- What is known of a source changes without an edge. -/
def setReady (n : Notifier α) (a : α) (ready : Bool) : Notifier α :=
  { n with ready := Function.update n.ready a ready }

/-- **An edge**: a source becomes ready, or more ready, and is queued if it is watched. -/
def rises (n : Notifier α) (a : α) : Notifier α := (n.setReady a true).signals a

/-- Some of the queued sources are handed out. -/
def handsOut (n : Notifier α) (batch : List α) : Notifier α :=
  { n with queued := fun a => n.queued a && decide (a ∉ batch), batch := batch }

/-- A watched source is polled: it is queued if it is ready. -/
def polls (n : Notifier α) (a : α) : Notifier α :=
  { n with queued := Function.update n.queued a (n.queued a || n.ready a) }

/-- A source is watched, and polled. -/
def watches (n : Notifier α) (a : α) : Notifier α :=
  polls { n with watched := Function.update n.watched a true } a

/-- A source is no longer watched. -/
def unwatches (n : Notifier α) (a : α) : Notifier α :=
  { n with watched := Function.update n.watched a false }

/-- A new source, which is not watched yet. -/
def renews (n : Notifier α) (a : α) (ready : Bool) : Notifier α :=
  { n.setReady a ready with queued := Function.update n.queued a false }

end Operations

/-! ### No source is lost -/

section Awake

/-- **No source in `kept` is lost.** -/
structure Awake (kept : α → Prop) (n : Notifier α) : Prop where
  nodup : n.batch.Nodup
  watched : ∀ a ∈ n.batch, n.watched a = true
  apart : ∀ a, n.attended = some a → a ∉ n.batch
  told : ∀ a, kept a → n.watched a = true → n.attended ≠ some a → n.ready a = true →
    n.queued a = true ∨ a ∈ n.batch

theorem Awake.attends (awake : n.Awake kept) {rest : List α} (next : n.batch = a :: rest)
    (idle : n.attended = none) : (n.attends a rest).Awake kept := by
  have nodup := awake.nodup
  rw [next, List.nodup_cons] at nodup
  refine ⟨nodup.2, fun b member => awake.watched b ?_, fun b attended => ?_,
    fun b isKept isWatched elsewhere isReady => ?_⟩
  · rw [next]
    exact List.mem_cons_of_mem _ member
  · cases attended
    exact nodup.1
  · rcases awake.told b isKept isWatched (by rw [idle]; simp) isReady with isQueued | member
    · exact Or.inl isQueued
    · rw [next] at member
      rcases List.mem_cons.mp member with rfl | later
      · exact absurd rfl elsewhere
      · exact Or.inr later

/-- **The program may leave a source that is not ready, or that is queued again.** -/
theorem Awake.leaves (awake : n.Awake kept)
    (finished : ∀ a, n.attended = some a → kept a → n.watched a = true → n.ready a = true →
      n.queued a = true) : n.leaves.Awake kept := by
  refine ⟨awake.nodup, awake.watched, fun a attended => ?_, fun a isKept isWatched _ isReady => ?_⟩
  · cases attended
  · by_cases attended : n.attended = some a
    · exact Or.inl (finished a attended isKept isWatched isReady)
    · exact awake.told a isKept isWatched attended isReady

variable [DecidableEq α]

theorem Awake.signals (awake : n.Awake kept) (a : α) : (n.signals a).Awake kept := by
  refine ⟨awake.nodup, awake.watched, awake.apart, fun b isKept isWatched elsewhere isReady => ?_⟩
  rcases awake.told b isKept isWatched elsewhere isReady with isQueued | member
  · left
    by_cases same : b = a
    · subst same
      simp [Notifier.signals, isQueued]
    · simp [Notifier.signals, Function.update_of_ne same, isQueued]
  · exact Or.inr member

/-- An edge reaches the program, whatever it is doing. -/
theorem Awake.rises (awake : n.Awake kept) (a : α) : (n.rises a).Awake kept := by
  refine ⟨awake.nodup, awake.watched, awake.apart, fun b isKept isWatched elsewhere isReady => ?_⟩
  by_cases same : b = a
  · subst same
    have isWatched : n.watched b = true := isWatched
    left
    simp [Notifier.rises, Notifier.signals, setReady, isWatched]
  · simp only [Notifier.rises, Notifier.signals, setReady, Function.update_of_ne same] at isReady ⊢
    exact awake.told b isKept isWatched elsewhere isReady

/-- A source that is attended to, or not watched, may change without an edge. -/
theorem Awake.setReady (awake : n.Awake kept) {ready : Bool}
    (free : n.attended = some a ∨ n.watched a = false ∨ ready = false) :
    (n.setReady a ready).Awake kept := by
  refine ⟨awake.nodup, awake.watched, awake.apart, fun b isKept isWatched elsewhere isReady => ?_⟩
  by_cases same : b = a
  · subst same
    rcases free with attended | unwatched | unready
    · exact absurd attended elsewhere
    · cases unwatched.symm.trans isWatched
    · simp [Notifier.setReady, unready] at isReady
  · simp only [Notifier.setReady, Function.update_of_ne same] at isReady
    exact awake.told b isKept isWatched elsewhere isReady

/-- What is handed out is no longer queued, and waits for its turn. -/
theorem Awake.handsOut (awake : n.Awake kept) {batch : List α} (empty : n.batch = [])
    (idle : n.attended = none) (nodup : batch.Nodup)
    (watched : ∀ a ∈ batch, n.watched a = true) : (n.handsOut batch).Awake kept := by
  refine ⟨nodup, watched, fun a attended => ?_, fun a isKept isWatched elsewhere isReady => ?_⟩
  · cases idle.symm.trans attended
  · by_cases member : a ∈ batch
    · exact Or.inr member
    · rcases awake.told a isKept isWatched elsewhere isReady with isQueued | old
      · left
        simp [Notifier.handsOut, isQueued, member]
      · rw [empty] at old
        cases old

theorem Awake.polls (awake : n.Awake kept) (a : α) : (n.polls a).Awake kept := by
  refine ⟨awake.nodup, awake.watched, awake.apart, fun b isKept isWatched elsewhere isReady => ?_⟩
  rcases awake.told b isKept isWatched elsewhere isReady with isQueued | member
  · left
    by_cases same : b = a
    · subst same
      simp [Notifier.polls, isQueued]
    · simp [Notifier.polls, Function.update_of_ne same, isQueued]
  · exact Or.inr member

theorem queued_polls (isReady : n.ready a = true) : (n.polls a).queued a = true := by
  simp [polls, isReady]

theorem Awake.watches (awake : n.Awake kept) (a : α) : (n.watches a).Awake kept := by
  refine ⟨awake.nodup, fun b member => ?_, awake.apart,
    fun b isKept isWatched elsewhere isReady => ?_⟩
  · by_cases same : b = a
    · subst same
      simp [Notifier.watches, Notifier.polls]
    · simp [Notifier.watches, Notifier.polls, Function.update_of_ne same, awake.watched b member]
  · by_cases same : b = a
    · subst same
      exact Or.inl (queued_polls isReady)
    · simp only [Notifier.watches, Notifier.polls, Function.update_of_ne same] at isWatched ⊢
      exact awake.told b isKept isWatched elsewhere isReady

theorem Awake.unwatches (awake : n.Awake kept) (outside : a ∉ n.batch) :
    (n.unwatches a).Awake kept := by
  refine ⟨awake.nodup, fun b member => ?_, awake.apart, fun b isKept isWatched elsewhere isReady => ?_⟩
  · have differs : b ≠ a := fun same => outside (same ▸ member)
    simp [Notifier.unwatches, Function.update_of_ne differs, awake.watched b member]
  · by_cases same : b = a
    · subst same
      simp [Notifier.unwatches] at isWatched
    · simp only [Notifier.unwatches, Function.update_of_ne same] at isWatched
      exact awake.told b isKept isWatched elsewhere isReady

/-- The program ends with a source for good. -/
theorem Awake.closes (awake : n.Awake kept) (attended : n.attended = some a) :
    (n.unwatches a).leaves.Awake kept := by
  refine (awake.unwatches (awake.apart a attended)).leaves fun b isAttended _ isWatched _ => ?_
  cases attended.symm.trans isAttended
  simp [Notifier.unwatches] at isWatched

/-- The program leaves a source that it has had polled. -/
theorem Awake.repolls (awake : n.Awake kept) (attended : n.attended = some a) :
    (n.polls a).leaves.Awake kept := by
  refine (awake.polls a).leaves fun b isAttended _ _ isReady => ?_
  cases attended.symm.trans isAttended
  exact queued_polls isReady

theorem Awake.renews (awake : n.Awake kept) (unwatched : n.watched a = false) (ready : Bool) :
    (n.renews a ready).Awake kept := by
  refine ⟨awake.nodup, awake.watched, awake.apart, fun b isKept isWatched elsewhere isReady => ?_⟩
  by_cases same : b = a
  · subst same
    cases unwatched.symm.trans isWatched
  · simp only [Notifier.renews, Notifier.setReady, Function.update_of_ne same] at isReady ⊢
    exact awake.told b isKept isWatched elsewhere isReady

end Awake

/-! ### A source that is lost -/

/-- **A source is ready, and nobody knows.** -/
structure Forgotten (n : Notifier α) (a : α) : Prop where
  watched : n.watched a = true
  ready : n.ready a = true
  queued : n.queued a = false
  batch : a ∉ n.batch
  attended : n.attended ≠ some a

theorem Forgotten.congr {m : Notifier α} (watched : m.watched a = n.watched a)
    (ready : m.ready a = n.ready a) (queued : m.queued a = n.queued a)
    (batch : a ∈ m.batch ↔ a ∈ n.batch) (attended : m.attended = some a ↔ n.attended = some a) :
    m.Forgotten a ↔ n.Forgotten a := by
  constructor
  · intro lost
    exact ⟨watched ▸ lost.watched, ready ▸ lost.ready, queued ▸ lost.queued,
      fun member => lost.batch (batch.mpr member), fun isAttended => lost.attended (attended.mpr isAttended)⟩
  · intro lost
    exact ⟨watched.trans lost.watched, ready.trans lost.ready, queued.trans lost.queued,
      fun member => lost.batch (batch.mp member), fun isAttended => lost.attended (attended.mp isAttended)⟩

theorem not_forgotten_of_attended (attended : n.attended = some a) : ¬ n.Forgotten a :=
  fun lost => lost.attended attended

theorem not_forgotten_of_mem (member : a ∈ n.batch) : ¬ n.Forgotten a := fun lost => lost.batch member

/-- The turn of another source. -/
theorem forgotten_attends {b : α} {rest : List α} (differs : a ≠ b) (next : n.batch = b :: rest)
    (idle : n.attended = none) : (n.attends b rest).Forgotten a ↔ n.Forgotten a := by
  refine Forgotten.congr rfl rfl rfl ?_ (iff_of_false (fun same => ?_) (by rw [idle]; simp))
  · rw [next, List.mem_cons, or_iff_right differs]
    rfl
  · exact differs (Option.some.inj same).symm

/-- The program leaves another source. -/
theorem forgotten_leaves (elsewhere : n.attended ≠ some a) : n.leaves.Forgotten a ↔ n.Forgotten a :=
  Forgotten.congr rfl rfl rfl Iff.rfl (iff_of_false (fun same => by cases same) elsewhere)

/-- **The program leaves a source**: it is lost if it is ready and not queued again. -/
theorem Awake.forgotten_leaves (awake : n.Awake kept) (attended : n.attended = some a) :
    n.leaves.Forgotten a ↔ n.watched a = true ∧ n.ready a = true ∧ n.queued a = false := by
  constructor
  · exact fun lost => ⟨lost.watched, lost.ready, lost.queued⟩
  · rintro ⟨watched, ready, queued⟩
    exact ⟨watched, ready, queued, awake.apart a attended, fun later => by cases later⟩

section Others

variable [DecidableEq α] {b : α}

theorem forgotten_signals (differs : a ≠ b) : (n.signals b).Forgotten a ↔ n.Forgotten a :=
  Forgotten.congr rfl rfl (by simp [signals, Function.update_of_ne differs]) Iff.rfl Iff.rfl

theorem forgotten_setReady {ready : Bool} (differs : a ≠ b) :
    (n.setReady b ready).Forgotten a ↔ n.Forgotten a :=
  Forgotten.congr rfl (by simp [setReady, Function.update_of_ne differs]) rfl Iff.rfl Iff.rfl

theorem forgotten_polls (differs : a ≠ b) : (n.polls b).Forgotten a ↔ n.Forgotten a :=
  Forgotten.congr rfl rfl (by simp [polls, Function.update_of_ne differs]) Iff.rfl Iff.rfl

theorem forgotten_unwatches (differs : a ≠ b) : (n.unwatches b).Forgotten a ↔ n.Forgotten a :=
  Forgotten.congr (by simp [unwatches, Function.update_of_ne differs]) rfl rfl Iff.rfl Iff.rfl

/-- What is handed out was queued. -/
theorem forgotten_handsOut {batch : List α} (empty : n.batch = [])
    (queued : ∀ source ∈ batch, n.queued source = true) :
    (n.handsOut batch).Forgotten a ↔ n.Forgotten a := by
  constructor
  · intro lost
    have outside : a ∉ batch := lost.batch
    have unqueued := lost.queued
    simp only [handsOut, outside, not_false_eq_true, decide_true, Bool.and_true] at unqueued
    exact ⟨lost.watched, lost.ready, unqueued, by rw [empty]; exact List.not_mem_nil, lost.attended⟩
  · intro lost
    refine ⟨lost.watched, lost.ready, ?_, fun member => ?_, lost.attended⟩
    · simp [handsOut, lost.queued]
    · cases lost.queued.symm.trans (queued a member)

end Others

end Notifier

end Zedis.Lib

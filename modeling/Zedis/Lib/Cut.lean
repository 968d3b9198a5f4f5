/-
**Lists cut at separators.**

`cut sep u` splits `u` at the first occurrence of `sep`; more elements at the end of `u` do not move
it (`cut_append`). A loop over the addresses of a memory that stops at the first match computes it
(`cut_segment`). `words blank u` are the maximal runs of elements that are not blank.
-/

import Mathlib.Data.List.TakeWhile
import Zedis.Lib.Memory

namespace Zedis.Lib

variable {α : Type}

section Cut

variable [DecidableEq α]

/-- What stands before the first `sep`, and after it. -/
def cut (sep : List α) : List α → Option (List α × List α)
  | [] => none
  | a :: u =>
    if sep.isPrefixOf (a :: u) then some ([], (a :: u).drop sep.length)
    else (cut sep u).map fun parts => (a :: parts.1, parts.2)

theorem cut_length {sep : List α} : ∀ {u line rest : List α}, cut sep u = some (line, rest) →
    u.length = line.length + sep.length + rest.length
  | [], _, _, found => nomatch found
  | a :: u, line, rest, found => by
    unfold cut at found
    by_cases here : sep.isPrefixOf (a :: u)
    · rw [if_pos here] at found
      cases found
      have short := (List.isPrefixOf_iff_prefix.mp here).length_le
      rw [List.length_drop, List.length_nil]
      omega
    · rw [if_neg here] at found
      obtain ⟨⟨line', rest'⟩, later, same⟩ := Option.map_eq_some_iff.mp found
      cases same
      have length := cut_length later
      simp only [List.length_cons]
      omega

/-- The parts of a cut. -/
theorem cut_eq_append {sep : List α} : ∀ {u line rest : List α}, cut sep u = some (line, rest) →
    u = line ++ sep ++ rest
  | [], _, _, found => nomatch found
  | a :: u, line, rest, found => by
    unfold cut at found
    by_cases here : sep.isPrefixOf (a :: u)
    · rw [if_pos here] at found
      cases found
      obtain ⟨after, same⟩ := List.isPrefixOf_iff_prefix.mp here
      rw [List.nil_append, ← same, List.drop_left]
    · rw [if_neg here] at found
      obtain ⟨⟨line', rest'⟩, later, same⟩ := Option.map_eq_some_iff.mp found
      cases same
      rw [List.cons_append, List.cons_append, ← cut_eq_append later]

/-- **There is a cut where there is a separator.** -/
theorem cut_of_infix {sep : List α} (nonempty : sep ≠ []) : ∀ {u : List α}, sep <:+: u →
    ∃ line rest, cut sep u = some (line, rest)
  | [], inside => absurd (List.infix_nil.mp inside) nonempty
  | a :: u, inside => by
    unfold cut
    by_cases here : sep.isPrefixOf (a :: u)
    · rw [if_pos here]
      exact ⟨_, _, rfl⟩
    · rw [if_neg here]
      rcases List.infix_cons_iff.mp inside with first | later
      · exact absurd (List.isPrefixOf_iff_prefix.mpr first) here
      · obtain ⟨line, rest, found⟩ := cut_of_infix nonempty later
        rw [found]
        exact ⟨_, _, rfl⟩

/-- **The first separator does not move when elements are appended.** -/
theorem cut_append {sep : List α} (t : List α) : ∀ {u line rest : List α},
    cut sep u = some (line, rest) → cut sep (u ++ t) = some (line, rest ++ t)
  | [], _, _, found => nomatch found
  | a :: u, line, rest, found => by
    have length := cut_length found
    unfold cut at found
    rw [List.cons_append, cut]
    by_cases here : sep.isPrefixOf (a :: u)
    · have fits := (List.isPrefixOf_iff_prefix.mp here)
      have still : sep.isPrefixOf (a :: (u ++ t)) :=
        List.isPrefixOf_iff_prefix.mpr (fits.trans (List.prefix_append (a :: u) t))
      rw [if_pos here] at found
      cases found
      rw [if_pos still, ← List.cons_append, List.drop_append_of_le_length fits.length_le]
    · rw [if_neg here] at found
      obtain ⟨⟨line', rest'⟩, later, same⟩ := Option.map_eq_some_iff.mp found
      cases same
      -- a separator that starts here would end inside `u`, because a later one does
      have still : ¬ sep.isPrefixOf (a :: (u ++ t)) := fun fits => here <| by
        rw [List.isPrefixOf_iff_prefix] at fits ⊢
        refine List.prefix_of_prefix_length_le fits (List.prefix_append (a :: u) t) ?_
        omega
      rw [if_neg still, cut_append t later]
      rfl

/-- **A loop over addresses that stops at the first match.** -/
theorem cut_segment (mem : Nat → α) (sep : List α) (test : Nat → Bool) (stop : Nat)
    (nonempty : 0 < sep.length)
    (meets : ∀ i, i + sep.length ≤ stop → (test i = true ↔ segment mem i sep.length = sep)) :
    ∀ n start, stop = start + n → cut sep (segment mem start n) =
      ((List.range' start (n + 1 - sep.length)).find? test).map fun i =>
        (segment mem start (i - start), segment mem (i + sep.length) (stop - (i + sep.length))) := by
  intro n
  induction n with
  | zero =>
    intro start _
    rw [show 0 + 1 - sep.length = 0 by omega]
    rfl
  | succ n ih =>
    intro start ends
    rw [segment_succ, cut, ← segment_succ]
    by_cases fits : sep.length ≤ n + 1
    · rw [show n + 1 + 1 - sep.length = n + 1 - sep.length + 1 by omega, List.range'_succ,
        List.find?_cons]
      have first : sep.isPrefixOf (segment mem start (n + 1)) = test start := by
        rw [Bool.eq_iff_iff, meets start (by omega), List.isPrefixOf_iff_prefix,
          List.prefix_iff_eq_take, take_segment mem start fits]
        exact eq_comm
      rw [first]
      by_cases here : test start = true
      · rw [if_pos here, here, Option.map_some, drop_segment, Nat.sub_self, segment_zero, ends]
        congr 3
        omega
      · rw [if_neg here, Bool.eq_false_iff.mpr here, ih (start + 1) (by omega), Option.map_map]
        refine Option.map_congr fun i found => ?_
        have above := (List.mem_range'_1.mp (List.mem_of_find?_eq_some found)).1
        rw [Function.comp_apply, show i - start = i - (start + 1) + 1 by omega, segment_succ]
    · have never : ∀ m ≤ n + 1, ¬ sep.isPrefixOf (segment mem start m) = true := fun m le fits' => by
        have short := (List.isPrefixOf_iff_prefix.mp fits').length_le
        rw [length_segment] at short
        omega
      rw [if_neg (never (n + 1) le_rfl), ih (start + 1) (by omega),
        show n + 1 + 1 - sep.length = 0 by omega, show n + 1 - sep.length = 0 by omega]
      rfl

end Cut

section Words

variable {blank : α → Bool}

/-- The maximal runs of elements that are not blank. -/
def words (blank : α → Bool) (u : List α) : List (List α) :=
  (u.splitOnP blank).filter fun word => !word.isEmpty

theorem words_nil : words blank [] = [] := by
  simp [words]

theorem words_blank {a : α} (isBlank : blank a = true) (u : List α) :
    words blank (a :: u) = words blank u := by
  simp [words, List.splitOnP_cons_eq_if_modifyHead, isBlank]

theorem words_dropWhile (u : List α) : words blank (u.dropWhile blank) = words blank u := by
  induction u with
  | nil => rfl
  | cons a u ih =>
    by_cases isBlank : blank a = true
    · rw [List.dropWhile_cons_of_pos isBlank, ih, words_blank isBlank]
    · rw [List.dropWhile_cons_of_neg isBlank]

/-- **The first word and the others.** -/
theorem words_takeWhile {u : List α} (visible : u.takeWhile (fun a => !blank a) ≠ []) :
    words blank u = u.takeWhile (fun a => !blank a) :: words blank (u.dropWhile fun a => !blank a) := by
  have inside : ∀ a ∈ u.takeWhile (fun a => !blank a), blank a = false := fun a member => by
    simpa using List.mem_takeWhile_imp member
  have shown : (u.takeWhile fun a => !blank a).isEmpty = false :=
    List.isEmpty_eq_false_iff.mpr visible
  conv_lhs => rw [← List.takeWhile_append_dropWhile (p := fun a => !blank a) (l := u)]
  cases after : u.dropWhile (fun a => !blank a) with
  | nil => simp [words, List.splitOnP_eq_singleton inside, shown]
  | cons a rest =>
    have isBlank : blank a = true := by
      have fails := List.head_dropWhile_not (fun a => !blank a) (l := u) (by simp [after])
      simpa [after] using fails
    rw [words_blank isBlank]
    simp [words, List.splitOnP_append_cons_of_forall_mem inside a isBlank, shown]

end Words

end Zedis.Lib

/-
**Rows of items with fences between them.**

`Fenced K T` is a nonempty row of items with a fence between any two neighbours: the children of a
search-tree node and its separator keys. `seek` walks over the fences that satisfy a test and stops
at an item; the row around that item is a `Hole`, and `Hole.fill` puts a row in its place. Every
list read off a row from left to right is a `weave` of what its items and its fences contribute, so
`weave_fill` says once where a replaced item stands in all of them.
-/

import Mathlib.Data.List.Basic
import Mathlib.Data.List.TakeWhile

namespace Zedis.Lib

variable {K T U X : Type}

/-- A row: items with the fence after each, and the last item. -/
structure Fenced (K T : Type) where
  kids : List (T × K)
  last : T

/-- A row without one of its items: what stands before it, and the fence and the items after it. -/
structure Hole (K T : Type) where
  left : List (T × K)
  right : Option (K × Fenced K T)

namespace Fenced

/-- The row of one item. -/
def single (item : T) : Fenced K T := ⟨[], item⟩

def items (row : Fenced K T) : List T := row.kids.map Prod.fst ++ [row.last]

def map (g : T → U) (row : Fenced K T) : Fenced K U :=
  ⟨row.kids.map fun kid => (g kid.1, kid.2), g row.last⟩

/-- What the items and the fences contribute, from left to right. -/
def weave (item : T → List X) (fence : K → List X) (row : Fenced K T) : List X :=
  (row.kids.flatMap fun kid => item kid.1 ++ fence kid.2) ++ item row.last

/-- The first item whose fence fails the test, or the last item, and the row around it. -/
def seek (pass : K → Bool) (row : Fenced K T) : T × Hole K T :=
  match row.kids.dropWhile fun kid => pass kid.2 with
  | [] => (row.last, ⟨row.kids.takeWhile fun kid => pass kid.2, none⟩)
  | (item, fence) :: rest =>
    (item, ⟨row.kids.takeWhile fun kid => pass kid.2, some (fence, ⟨rest, row.last⟩)⟩)

end Fenced

namespace Hole

/-- The row with `patch` in the place of the missing item. -/
def fill (hole : Hole K T) (patch : Fenced K T) : Fenced K T :=
  match hole.right with
  | none => ⟨hole.left ++ patch.kids, patch.last⟩
  | some (fence, rest) => ⟨hole.left ++ patch.kids ++ (patch.last, fence) :: rest.kids, rest.last⟩

/-- The hole with an item and its fence put before the missing item. -/
def pushLeft (hole : Hole K T) (item : T) (fence : K) : Hole K T :=
  ⟨hole.left ++ [(item, fence)], hole.right⟩

/-- The hole with a fence and an item put after the missing item. -/
def pushRight (hole : Hole K T) (fence : K) (item : T) : Hole K T :=
  ⟨hole.left, some (fence, match hole.right with
    | none => .single item
    | some (next, rest) => ⟨(item, next) :: rest.kids, rest.last⟩)⟩

def map (g : T → U) (hole : Hole K T) : Hole K U :=
  ⟨hole.left.map fun kid => (g kid.1, kid.2), hole.right.map fun rest => (rest.1, rest.2.map g)⟩

def weaveLeft (item : T → List X) (fence : K → List X) (hole : Hole K T) : List X :=
  hole.left.flatMap fun kid => item kid.1 ++ fence kid.2

def weaveRight (item : T → List X) (fence : K → List X) (hole : Hole K T) : List X :=
  match hole.right with
  | none => []
  | some (next, rest) => fence next ++ rest.weave item fence

/-- The items around the missing one. -/
def items (hole : Hole K T) : List T :=
  hole.weaveLeft (fun item => [item]) (fun _ => []) ++
    hole.weaveRight (fun item => [item]) fun _ => []

end Hole

section Weave

variable (item : T → List X) (fence : K → List X)

@[simp]
theorem Fenced.weave_single (t : T) : (Fenced.single t : Fenced K T).weave item fence = item t := by
  simp [Fenced.weave, Fenced.single]

theorem Fenced.items_eq_weave (row : Fenced K T) :
    row.items = row.weave (fun t => [t]) fun _ => [] := by
  simp [Fenced.weave, Fenced.items, List.map_eq_flatMap]

/-- Without fences a weave runs over the items. -/
theorem Fenced.weave_items (row : Fenced K T) :
    row.weave item (fun _ => []) = row.items.flatMap item := by
  simp [Fenced.weave, Fenced.items, List.flatMap_map]

theorem Fenced.weave_map (g : U → T) (row : Fenced K U) :
    (row.map g).weave item fence = row.weave (fun t => item (g t)) fence := by
  simp [Fenced.weave, Fenced.map, List.flatMap_map]

theorem Fenced.map_weave {Y : Type} (g : X → Y) (row : Fenced K T) :
    (row.weave item fence).map g = row.weave (fun t => (item t).map g) fun k => (fence k).map g := by
  simp [Fenced.weave, List.map_flatMap]

theorem Fenced.weave_sublist {item item' : T → List X} {fence fence' : K → List X}
    (items : ∀ t, (item t).Sublist (item' t)) (fences : ∀ k, (fence k).Sublist (fence' k)) :
    ∀ row : Fenced K T, (row.weave item fence).Sublist (row.weave item' fence')
  | ⟨[], last⟩ => items last
  | ⟨kid :: rest, last⟩ => by
    have ih := weave_sublist items fences ⟨rest, last⟩
    unfold Fenced.weave at ih ⊢
    simp only [List.flatMap_cons, List.append_assoc] at ih ⊢
    exact (items kid.1).append ((fences kid.2).append ih)

theorem Fenced.item_sublist {row : Fenced K T} {t : T} (member : t ∈ row.items) :
    (item t).Sublist (row.weave item fence) := by
  rcases List.mem_append.mp member with inKids | isLast
  · obtain ⟨kid, present, rfl⟩ := List.mem_map.mp inKids
    have block : (item kid.1 ++ fence kid.2).Sublist
        (row.kids.flatMap fun kid => item kid.1 ++ fence kid.2) := by
      rw [List.flatMap_def]
      exact List.sublist_flatten_of_mem (List.mem_map_of_mem present)
    exact ((List.sublist_append_left _ _).trans block).trans (List.sublist_append_left _ _)
  · rw [List.mem_singleton.mp isLast]
    exact List.sublist_append_right _ _

/-- **Where a filled-in row stands.** -/
theorem Hole.weave_fill (hole : Hole K T) (patch : Fenced K T) :
    (hole.fill patch).weave item fence =
      hole.weaveLeft item fence ++ patch.weave item fence ++ hole.weaveRight item fence := by
  obtain ⟨left, right⟩ := hole
  cases right with
  | none => simp [Hole.fill, Fenced.weave, Hole.weaveLeft, Hole.weaveRight]
  | some rest => simp [Hole.fill, Fenced.weave, Hole.weaveLeft, Hole.weaveRight]

@[simp]
theorem Hole.weaveLeft_pushLeft (hole : Hole K T) (t : T) (k : K) :
    (hole.pushLeft t k).weaveLeft item fence = hole.weaveLeft item fence ++ item t ++ fence k := by
  simp [Hole.pushLeft, Hole.weaveLeft]

@[simp]
theorem Hole.weaveRight_pushLeft (hole : Hole K T) (t : T) (k : K) :
    (hole.pushLeft t k).weaveRight item fence = hole.weaveRight item fence := rfl

@[simp]
theorem Hole.weaveLeft_pushRight (hole : Hole K T) (k : K) (t : T) :
    (hole.pushRight k t).weaveLeft item fence = hole.weaveLeft item fence := rfl

@[simp]
theorem Hole.weaveRight_pushRight (hole : Hole K T) (k : K) (t : T) :
    (hole.pushRight k t).weaveRight item fence =
      fence k ++ item t ++ hole.weaveRight item fence := by
  obtain ⟨left, right⟩ := hole
  cases right with
  | none => simp [Hole.pushRight, Hole.weaveRight]
  | some rest => simp [Hole.pushRight, Hole.weaveRight, Fenced.weave]

end Weave

/-! ### Items -/

theorem Hole.items_fill (hole : Hole K T) (t : T) :
    (hole.fill (.single t)).items.Perm (t :: hole.items) := by
  rw [Fenced.items_eq_weave, Hole.weave_fill, Fenced.weave_single, Hole.items, List.append_assoc]
  exact List.perm_middle

theorem Hole.items_pushLeft (hole : Hole K T) (t : T) (k : K) :
    (hole.pushLeft t k).items.Perm (t :: hole.items) := by
  rw [Hole.items, Hole.weaveLeft_pushLeft, Hole.weaveRight_pushLeft, Hole.items, List.append_nil,
    List.append_assoc]
  exact List.perm_middle

theorem Hole.items_pushRight (hole : Hole K T) (k : K) (t : T) :
    (hole.pushRight k t).items.Perm (t :: hole.items) := by
  rw [Hole.items, Hole.weaveLeft_pushRight, Hole.weaveRight_pushRight, Hole.items, List.nil_append]
  exact List.perm_middle

theorem Fenced.map_congr {g g' : T → U} {row : Fenced K T} (same : ∀ t ∈ row.items, g t = g' t) :
    row.map g = row.map g' := by
  unfold Fenced.map
  rw [same row.last (by simp [Fenced.items])]
  congr 1
  refine List.map_congr_left fun kid member => ?_
  rw [same kid.1 (List.mem_append_left _ (List.mem_map_of_mem member))]

theorem Hole.map_congr {g g' : T → U} {hole : Hole K T} (same : ∀ t ∈ hole.items, g t = g' t) :
    hole.map g = hole.map g' := by
  obtain ⟨left, right⟩ := hole
  have leftSame : left.map (fun kid => (g kid.1, kid.2)) = left.map fun kid => (g' kid.1, kid.2) := by
    refine List.map_congr_left fun kid member => ?_
    rw [same kid.1]
    refine List.mem_append_left _ ?_
    exact List.mem_flatMap.mpr ⟨kid, member, by simp⟩
  cases right with
  | none => simp only [Hole.map, leftSame, Option.map_none]
  | some rest =>
    have restSame : ∀ t ∈ rest.2.items, g t = g' t := fun t member => by
      refine same t (List.mem_append_right _ ?_)
      rw [Fenced.items_eq_weave] at member
      exact member
    simp only [Hole.map, leftSame, Option.map_some, Fenced.map_congr restSame]

/-! ### Maps -/

@[simp]
theorem Fenced.map_single (g : T → U) (t : T) :
    (Fenced.single t : Fenced K T).map g = .single (g t) := rfl

@[simp]
theorem Fenced.items_map (g : T → U) (row : Fenced K T) : (row.map g).items = row.items.map g := by
  simp [Fenced.map, Fenced.items]

theorem Hole.map_fill (g : T → U) (hole : Hole K T) (patch : Fenced K T) :
    (hole.fill patch).map g = (hole.map g).fill (patch.map g) := by
  obtain ⟨left, right⟩ := hole
  cases right with
  | none => simp [Hole.fill, Hole.map, Fenced.map]
  | some rest => simp [Hole.fill, Hole.map, Fenced.map]

theorem Hole.map_pushLeft (g : T → U) (hole : Hole K T) (t : T) (k : K) :
    (hole.pushLeft t k).map g = (hole.map g).pushLeft (g t) k := by
  simp [Hole.pushLeft, Hole.map]

theorem Hole.map_pushRight (g : T → U) (hole : Hole K T) (k : K) (t : T) :
    (hole.pushRight k t).map g = (hole.map g).pushRight k (g t) := by
  obtain ⟨left, right⟩ := hole
  cases right with
  | none => simp [Hole.pushRight, Hole.map, Fenced.map, Fenced.single]
  | some rest => simp [Hole.pushRight, Hole.map, Fenced.map]

/-! ### Filling -/

theorem Hole.fill_pushLeft (hole : Hole K T) (t t' : T) (k : K) :
    (hole.pushLeft t k).fill (.single t') = hole.fill ⟨[(t, k)], t'⟩ := by
  obtain ⟨left, right⟩ := hole
  cases right with
  | none => simp [Hole.pushLeft, Hole.fill, Fenced.single]
  | some rest => simp [Hole.pushLeft, Hole.fill, Fenced.single]

theorem Hole.fill_pushRight (hole : Hole K T) (t t' : T) (k : K) :
    (hole.pushRight k t').fill (.single t) = hole.fill ⟨[(t, k)], t'⟩ := by
  obtain ⟨left, right⟩ := hole
  cases right with
  | none => simp [Hole.pushRight, Hole.fill, Fenced.single]
  | some rest => simp [Hole.pushRight, Hole.fill, Fenced.single]

theorem Hole.items_fill_pair (hole : Hole K T) (t t' : T) (k : K) :
    (hole.fill ⟨[(t, k)], t'⟩).items.Perm (t :: t' :: hole.items) := by
  rw [← Hole.fill_pushLeft]
  exact ((hole.pushLeft t k).items_fill t').trans
    (((hole.items_pushLeft t k).cons t').trans (List.Perm.swap t t' _))

/-- The number of fences of a filled row. -/
theorem Hole.fill_kids_length (hole : Hole K T) (t : T) :
    (hole.fill (.single t)).kids.length = hole.items.length := by
  have same := (hole.items_fill t).length_eq
  rw [Fenced.items, List.length_append, List.length_map, List.length_singleton,
    List.length_cons] at same
  omega

/-! ### Seeking -/

section Seek

variable (pass : K → Bool)

/-- **The row is its item in its hole.** -/
theorem Fenced.seek_fill (row : Fenced K T) :
    (row.seek pass).2.fill (.single (row.seek pass).1) = row := by
  have parts := List.takeWhile_append_dropWhile (p := fun kid : T × K => pass kid.2) (l := row.kids)
  unfold Fenced.seek
  split
  · rename_i none
    rw [none, List.append_nil] at parts
    simp [Hole.fill, Fenced.single, parts]
  · rename_i item fence rest some
    rw [some] at parts
    simp [Hole.fill, Fenced.single, parts]

/-- The fences before the item pass the test. -/
theorem Fenced.seek_left (row : Fenced K T) : ∀ kid ∈ (row.seek pass).2.left, pass kid.2 = true := by
  have passes : ∀ kid ∈ row.kids.takeWhile fun kid => pass kid.2, pass kid.2 = true :=
    fun kid member => by simpa using List.mem_takeWhile_imp member
  unfold Fenced.seek
  split
  · exact passes
  · exact passes

/-- The fence after the item fails the test. -/
theorem Fenced.seek_right (row : Fenced K T) :
    ∀ rest, (row.seek pass).2.right = some rest → pass rest.1 = false := by
  unfold Fenced.seek
  split
  · nofun
  · rename_i item fence rest some
    intro rest' same
    cases same
    have fails := List.head_dropWhile_not (fun kid : T × K => pass kid.2) (by rw [some]; simp)
    simpa [some] using fails

theorem Fenced.seek_map (g : T → U) (row : Fenced K T) :
    (row.map g).seek pass = (g (row.seek pass).1, (row.seek pass).2.map g) := by
  have dropped : (row.kids.map fun kid => (g kid.1, kid.2)).dropWhile (fun kid => pass kid.2) =
      (row.kids.dropWhile fun kid => pass kid.2).map fun kid => (g kid.1, kid.2) := by
    rw [List.dropWhile_map]
    rfl
  have taken : (row.kids.map fun kid => (g kid.1, kid.2)).takeWhile (fun kid => pass kid.2) =
      (row.kids.takeWhile fun kid => pass kid.2).map fun kid => (g kid.1, kid.2) := by
    rw [List.takeWhile_map]
    rfl
  unfold Fenced.seek
  simp only [Fenced.map, dropped, taken]
  cases row.kids.dropWhile fun kid => pass kid.2 with
  | nil => rfl
  | cons kid rest => rfl

end Seek

end Zedis.Lib

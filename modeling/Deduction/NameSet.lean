/-!
# Sets of names

A finite set of names, held as the increasing list of its members. The order is that of code
points, character by character. A set of names has one such list, so two sets are equal when they
have the same members (`ext_mem`).
-/

namespace Deduction

structure NameSet where
  toList : List String
  sorted : toList.Pairwise (· < ·)
deriving DecidableEq

namespace NameSet

def empty : NameSet := ⟨[], .nil⟩

instance : Membership String NameSet := ⟨fun s name => name ∈ s.toList⟩

instance (s : NameSet) (name : String) : Decidable (name ∈ s) :=
  inferInstanceAs (Decidable (name ∈ s.toList))

def isEmpty (s : NameSet) : Bool := s.toList.isEmpty

/-- An increasing list with `name` put in its place, once. -/
def insertSorted (name : String) : List String → List String
  | [] => [name]
  | n :: rest =>
    if name < n then name :: n :: rest
    else if n < name then n :: insertSorted name rest
    else n :: rest

theorem mem_insertSorted {name other : String} : ∀ {names : List String},
    other ∈ insertSorted name names ↔ other = name ∨ other ∈ names
  | [] => by simp [insertSorted]
  | n :: rest => by
    rw [insertSorted]
    split
    · simp
    · next hlt =>
      split
      · rw [List.mem_cons, mem_insertSorted, List.mem_cons]
        exact or_left_comm
      · next hgt =>
        have h : name = n := String.le_antisymm (String.not_lt.1 hgt) (String.not_lt.1 hlt)
        simp [h]

theorem pairwise_insertSorted {name : String} : ∀ {names : List String},
    names.Pairwise (· < ·) → (insertSorted name names).Pairwise (· < ·)
  | [], _ => by simp [insertSorted]
  | n :: rest, h => by
    rw [List.pairwise_cons] at h
    rw [insertSorted]
    split
    · next hlt =>
      refine List.pairwise_cons.2 ⟨fun m hm => ?_, List.pairwise_cons.2 h⟩
      rcases List.mem_cons.1 hm with rfl | hm
      · exact hlt
      · exact String.lt_trans hlt (h.1 m hm)
    · split
      · next hgt =>
        refine List.pairwise_cons.2 ⟨fun m hm => ?_, pairwise_insertSorted h.2⟩
        rcases mem_insertSorted.1 hm with rfl | hm
        · exact hgt
        · exact h.1 m hm
      · exact List.pairwise_cons.2 h

def insert (s : NameSet) (name : String) : NameSet :=
  ⟨insertSorted name s.toList, pairwise_insertSorted s.sorted⟩

/-- The set of the names in a list, in whatever order and however often they stand there. -/
def ofList (names : List String) : NameSet := names.foldl insert empty

/-- The least of some names. -/
def least? (names : List String) : Option String := (ofList names).toList.head?

theorem mem_insert {s : NameSet} {name other : String} :
    other ∈ s.insert name ↔ other = name ∨ other ∈ s :=
  mem_insertSorted

theorem mem_foldl_insert {name : String} : ∀ (names : List String) (s : NameSet),
    name ∈ names.foldl insert s ↔ name ∈ s ∨ name ∈ names
  | [], s => by simp
  | n :: rest, s => by
    rw [List.foldl_cons, mem_foldl_insert, mem_insert, List.mem_cons, or_assoc, or_left_comm]

@[simp]
theorem mem_ofList {names : List String} {name : String} : name ∈ ofList names ↔ name ∈ names := by
  rw [ofList, mem_foldl_insert]
  exact or_iff_right (List.not_mem_nil)

theorem pairwise_ext : ∀ {xs ys : List String}, xs.Pairwise (· < ·) → ys.Pairwise (· < ·) →
    (∀ name, name ∈ xs ↔ name ∈ ys) → xs = ys
  | [], [], _, _, _ => rfl
  | [], y :: ys, _, _, h => absurd ((h y).2 (List.mem_cons_self ..)) List.not_mem_nil
  | x :: xs, [], _, _, h => absurd ((h x).1 (List.mem_cons_self ..)) List.not_mem_nil
  | x :: xs, y :: ys, hx, hy, h => by
    rw [List.pairwise_cons] at hx hy
    have hxy : x = y := by
      rcases List.mem_cons.1 ((h x).1 (List.mem_cons_self ..)) with e | hxs
      · exact e
      rcases List.mem_cons.1 ((h y).2 (List.mem_cons_self ..)) with e | hys
      · exact e.symm
      exact absurd (String.lt_trans (hx.1 y hys) (hy.1 x hxs)) (String.lt_irrefl x)
    subst hxy
    refine congrArg (x :: ·) (pairwise_ext hx.2 hy.2 fun name => ⟨fun hm => ?_, fun hm => ?_⟩)
    · rcases List.mem_cons.1 ((h name).1 (List.mem_cons_of_mem _ hm)) with rfl | h'
      · exact absurd (hx.1 name hm) (String.lt_irrefl name)
      · exact h'
    · rcases List.mem_cons.1 ((h name).2 (List.mem_cons_of_mem _ hm)) with rfl | h'
      · exact absurd (hy.1 name hm) (String.lt_irrefl name)
      · exact h'

theorem ext_mem {s t : NameSet} (h : ∀ name, name ∈ s ↔ name ∈ t) : s = t := by
  obtain ⟨xs, hx⟩ := s
  obtain ⟨ys, hy⟩ := t
  obtain rfl : xs = ys := pairwise_ext hx hy h
  rfl

end NameSet

end Deduction

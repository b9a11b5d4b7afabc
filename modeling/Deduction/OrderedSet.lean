/-!
# Sets in order of arrival

A list without repetition. A value that is there already leaves the set as it is, so the first
occurrence fixes the place (`toList_insert`).
-/

namespace Deduction

structure OrderedSet (α : Type) where
  toList : List α
  nodup : toList.Nodup
deriving DecidableEq

namespace OrderedSet

variable {α : Type}

def empty : OrderedSet α := ⟨[], List.nodup_nil⟩

instance : Membership α (OrderedSet α) := ⟨fun s a => a ∈ s.toList⟩

theorem mem_toList {s : OrderedSet α} {a : α} : a ∈ s.toList ↔ a ∈ s := Iff.rfl

def size (s : OrderedSet α) : Nat := s.toList.length

variable [DecidableEq α]

instance (s : OrderedSet α) (a : α) : Decidable (a ∈ s) :=
  inferInstanceAs (Decidable (a ∈ s.toList))

def insert (s : OrderedSet α) (a : α) : OrderedSet α :=
  if h : a ∈ s.toList then s
  else ⟨s.toList ++ [a], by
    simpa [List.nodup_append, s.nodup] using
      fun (b : α) (hb : b ∈ s.toList) (e : b = a) => h (e ▸ hb)⟩

def insertMany (s : OrderedSet α) (values : List α) : OrderedSet α :=
  values.foldl insert s

/-- The values in the order of their first occurrences. -/
def ofList (values : List α) : OrderedSet α := empty.insertMany values

theorem toList_insert (s : OrderedSet α) (a : α) :
    (s.insert a).toList = if a ∈ s then s.toList else s.toList ++ [a] := by
  rw [insert]
  split
  · next h => exact (if_pos h).symm
  · next h => exact (if_neg h).symm

theorem mem_insert {s : OrderedSet α} {a b : α} : b ∈ s.insert a ↔ b ∈ s ∨ b = a := by
  rw [← mem_toList, toList_insert]
  split
  · next h => exact ⟨Or.inl, fun hb => hb.elim id fun e => e ▸ h⟩
  · simp [mem_toList]

end OrderedSet

end Deduction

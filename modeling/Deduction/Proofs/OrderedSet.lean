import Deduction.OrderedSet
import Mathlib.Tactic.SplitIfs

/-!
# Repetitions

Putting values into a set one after the other leaves the first occurrence of each
(`OrderedSet.toList_insertMany`), and putting the values of the outcome in once more changes nothing
(`OrderedSet.insertMany_toList_insertMany`). Whether repetitions are dropped before or after a
function is applied does not matter, if it keeps different values apart (`eraseDups_map`).
-/

namespace Deduction

theorem OrderedSet.ext {α : Type} {s t : OrderedSet α} (h : s.toList = t.toList) : s = t := by
  cases s
  cases t
  cases h
  rfl

variable {α β : Type} [DecidableEq α] [DecidableEq β]

theorem eraseDups_of_nodup : ∀ {xs : List α}, xs.Nodup → xs.eraseDups = xs
  | [], _ => rfl
  | a :: xs, h => by
    obtain ⟨ha, hxs⟩ := List.nodup_cons.1 h
    have hfilter : xs.filter (fun b => !b == a) = xs := by
      refine List.filter_eq_self.2 fun b hb => ?_
      simpa using fun e : b = a => ha (e ▸ hb)
    rw [List.eraseDups_cons, hfilter, eraseDups_of_nodup hxs]

theorem eraseDups_map {f : α → β} {xs : List α} (hf : ∀ a ∈ xs, ∀ b ∈ xs, f a = f b → a = b) :
    (xs.map f).eraseDups = xs.eraseDups.map f := by
  cases xs with
  | nil => rfl
  | cons a xs =>
    have hfilter : xs.filter ((fun c => !c == f a) ∘ f) = xs.filter fun b => !b == a := by
      refine List.filter_congr fun b hb => ?_
      have hiff : f b = f a ↔ b = a :=
        ⟨hf b (List.mem_cons_of_mem _ hb) a (List.mem_cons_self ..), congrArg f⟩
      rw [Bool.eq_iff_iff]
      simp [hiff]
    have hsub : ∀ b ∈ xs.filter fun b => !b == a, b ∈ a :: xs :=
      fun b hb => List.mem_cons_of_mem _ (List.mem_filter.1 hb).1
    rw [List.map_cons, List.eraseDups_cons, List.eraseDups_cons, List.filter_map, hfilter,
      eraseDups_map fun b hb c hc => hf b (hsub b hb) c (hsub c hc), List.map_cons]
termination_by xs.length
decreasing_by
  subst_vars
  exact Nat.lt_succ_of_le (List.length_filter_le _ _)

namespace OrderedSet

/-- A search for a value that another set lacks finds none just when there is none. -/
theorem find?_not_mem_eq_none {s t : OrderedSet α} :
    s.toList.find? (· ∉ t) = none ↔ ∀ a ∈ s, a ∈ t := by
  simp [List.find?_eq_none, mem_toList]

theorem toList_insertMany : ∀ (values : List α) (s : OrderedSet α),
    (s.insertMany values).toList = (s.toList ++ values).eraseDups
  | [], s => by
    rw [List.append_nil, eraseDups_of_nodup s.nodup]
    rfl
  | a :: rest, s => by
    have ih := toList_insertMany rest (s.insert a)
    rw [insertMany, List.foldl_cons, ← insertMany, ih, toList_insert]
    split_ifs with ha
    · -- The value is there already, so it adds nothing behind the set either.
      have hdrop : (a :: rest).removeAll s.toList = rest.removeAll s.toList := by
        simp [List.removeAll, mem_toList.2 ha]
      rw [List.eraseDups_append, List.eraseDups_append, hdrop]
    · rw [List.append_assoc, List.singleton_append]

theorem toList_ofList (values : List α) : (ofList values).toList = values.eraseDups :=
  toList_insertMany values empty

theorem ofList_toList (s : OrderedSet α) : ofList s.toList = s :=
  ext ((toList_ofList _).trans (eraseDups_of_nodup s.nodup))

theorem insertMany_of_forall_mem : ∀ {values : List α} {s : OrderedSet α},
    (∀ a ∈ values, a ∈ s) → s.insertMany values = s
  | [], _, _ => rfl
  | a :: rest, s, h => by
    obtain ⟨ha, hrest⟩ := List.forall_mem_cons.1 h
    have hinsert : s.insert a = s := ext (by rw [toList_insert, if_pos ha])
    rw [insertMany, List.foldl_cons, hinsert, ← insertMany, insertMany_of_forall_mem hrest]

theorem insertMany_toList_insertMany (s : OrderedSet α) (values : List α) :
    s.insertMany (s.insertMany values).toList = s.insertMany values := by
  -- What is put in comes behind the set, and putting the set into itself does nothing.
  obtain ⟨more, hmore⟩ : s.toList <+: (s.insertMany values).toList := by
    rw [toList_insertMany, List.eraseDups_append, eraseDups_of_nodup s.nodup]
    exact List.prefix_append _ _
  refine ext ?_
  rw [← hmore, insertMany, List.foldl_append, ← insertMany, ← insertMany,
    insertMany_of_forall_mem fun a ha => mem_toList.1 ha, toList_insertMany, hmore,
    eraseDups_of_nodup (s.insertMany values).nodup]

end OrderedSet

end Deduction

import Deduction.Table

/-!
# Entries and values

An entry of a table is what looking up its name gives (`Table.get?_of_mem`, `Table.mem_of_get?`).
Entries that are put into a table are found there afterwards, and beside them what was there before
(`Table.get?_insertAll`). What is done to each entry is seen when its name is looked up
(`Table.get?_map`, `Table.get?_filterMap`).
-/

namespace Deduction

namespace Table

variable {α β : Type}

theorem mem_of_valueAt? {key : String} {value : α} : ∀ {entries : List (String × α)},
    valueAt? key entries = some value → (key, value) ∈ entries
  | [], h => by simp [valueAt?] at h
  | (k, v) :: rest, h => by
    simp only [valueAt?] at h
    split at h
    · rename_i hk
      simp only [Option.some.injEq] at h
      simp [hk, h]
    · exact List.mem_cons_of_mem _ (mem_of_valueAt? h)

theorem mem_of_get? {t : Table α} {key : String} {value : α} (h : t.get? key = some value) :
    (key, value) ∈ t.entries :=
  mem_of_valueAt? h

theorem mem_put {key : String} {value : α} {e : String × α} : ∀ {entries : List (String × α)},
    e ∈ put key value entries → e = (key, value) ∨ e ∈ entries
  | [], h => by simpa [put] using h
  | (k, v) :: rest, h => by
    simp only [put] at h
    split at h
    · rcases List.mem_cons.1 h with rfl | h
      · exact .inl rfl
      · exact .inr (List.mem_cons_of_mem _ h)
    · rcases List.mem_cons.1 h with rfl | h
      · exact .inr (List.mem_cons_self ..)
      · exact (mem_put h).imp_right (List.mem_cons_of_mem _)

theorem mem_insert {t : Table α} {key : String} {value : α} {e : String × α}
    (h : e ∈ (t.insert key value).entries) : e = (key, value) ∨ e ∈ t.entries :=
  mem_put h

/-- The table with some entries put into it, one after the other. -/
def insertAll (t : Table α) (entries : List (String × α)) : Table α :=
  entries.foldl (fun t e => t.insert e.1 e.2) t

theorem mem_insertAll {e : String × α} : ∀ {entries : List (String × α)} {t : Table α},
    e ∈ (t.insertAll entries).entries → e ∈ entries ∨ e ∈ t.entries
  | [], _, h => .inr h
  | (k, v) :: rest, t, h => by
    rcases mem_insertAll (t := t.insert k v) h with h | h
    · exact .inl (List.mem_cons_of_mem _ h)
    · rcases mem_insert h with rfl | h
      · exact .inl (List.mem_cons_self ..)
      · exact .inr h

theorem mem_ofList {entries : List (String × α)} {e : String × α}
    (h : e ∈ (ofList entries).entries) : e ∈ entries := by
  rcases mem_insertAll h with h | h
  · exact h
  · simp [empty] at h

/-- A name that is put in has the value of its entry, and every other name keeps its own. -/
theorem get?_insertAll (name : String) : ∀ {entries : List (String × α)} (t : Table α),
    (entries.map Prod.fst).Nodup →
      (t.insertAll entries).get? name = (valueAt? name entries).or (t.get? name)
  | [], _, _ => rfl
  | (k, v) :: rest, t, hnodup => by
    simp only [List.map_cons, List.nodup_cons] at hnodup
    have ih := get?_insertAll name (t.insert k v) hnodup.2
    rw [get?_insert] at ih
    rw [valueAt?, insertAll, List.foldl_cons, ← insertAll, ih]
    by_cases hk : k = name
    · -- The name does not come again, so its entry is not replaced.
      have hrest : valueAt? name rest = none := by
        cases hv : valueAt? name rest with
        | none => rfl
        | some w => exact absurd (List.mem_map.2 ⟨_, mem_of_valueAt? hv, hk.symm⟩) hnodup.1
      rw [hrest, if_pos hk.symm, if_pos hk]
      rfl
    · rw [if_neg fun e => hk e.symm, if_neg hk]

theorem get?_of_mem {t : Table α} {key : String} {value : α} (h : (key, value) ∈ t.entries) :
    t.get? key = some value := by
  obtain ⟨entries, nodup⟩ := t
  simp only at h
  induction entries with
  | nil => simp at h
  | cons e rest ih =>
    obtain ⟨k, v⟩ := e
    simp only [List.map_cons, List.nodup_cons] at nodup
    rw [get?, valueAt?]
    rcases List.mem_cons.1 h with he | he
    · cases he
      rw [if_pos rfl]
    · have hk : k ≠ key := by
        rintro rfl
        exact nodup.1 (List.mem_map.2 ⟨_, he, rfl⟩)
      rw [if_neg hk]
      exact ih nodup.2 he

theorem get?_eq_some {t : Table α} {key : String} {value : α} :
    t.get? key = some value ↔ (key, value) ∈ t.entries :=
  ⟨mem_of_get?, get?_of_mem⟩

theorem get?_map (f : α → β) (t : Table α) (key : String) :
    (t.map f).get? key = (t.get? key).map f := by
  ext value
  simp only [get?_eq_some, map, List.mem_map, Prod.mk.injEq, Option.map_eq_some_iff]
  constructor
  · rintro ⟨⟨_, v⟩, he, rfl, hv⟩
    exact ⟨v, he, hv⟩
  · rintro ⟨v, he, hv⟩
    exact ⟨(key, v), he, rfl, hv⟩

/-- The images of those entries that have one. -/
def filterMap (f : α → Option β) (t : Table α) : Table β where
  entries := t.entries.filterMap fun e => (f e.2).map (e.1, ·)
  nodup := by
    have h := List.pairwise_map.1 t.nodup
    refine List.pairwise_map.2 (List.pairwise_filterMap.2 (h.imp fun hne => ?_))
    simp only [Option.map_eq_some_iff]
    rintro _ ⟨v, -, rfl⟩ _ ⟨w, -, rfl⟩
    exact hne

theorem get?_filterMap (f : α → Option β) (t : Table α) (key : String) :
    (t.filterMap f).get? key = (t.get? key).bind f := by
  ext value
  simp only [get?_eq_some, filterMap, List.mem_filterMap, Option.map_eq_some_iff, Prod.mk.injEq,
    Option.bind_eq_some_iff]
  constructor
  · rintro ⟨⟨_, v⟩, he, _, hv, rfl, rfl⟩
    exact ⟨v, he, hv⟩
  · rintro ⟨v, he, hv⟩
    exact ⟨(key, v), he, value, hv, rfl, rfl⟩

@[simp]
theorem get?_empty (key : String) : (empty : Table α).get? key = none := rfl

theorem get?_single (key other : String) (value : α) :
    (single key value).get? other = if other = key then some value else none := by
  rw [single, get?_insert, get?_empty]

theorem get?_single_eq_some {key other : String} {value value' : α} :
    (single key value).get? other = some value' ↔ other = key ∧ value = value' := by
  rw [get?_single]
  by_cases h : other = key <;> simp [h]

end Table

end Deduction

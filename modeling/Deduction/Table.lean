/-!
# Tables

A table maps names to values and remembers the order in which its names came. Putting a name that
is there already replaces its value and leaves its place (`map_fst_put`, `get?_insert`). No name
stands twice, so a table built again from its own entries is the same table (`ofList_entries`).
-/

namespace Deduction

structure Table (α : Type) where
  entries : List (String × α)
  nodup : (entries.map Prod.fst).Nodup
deriving DecidableEq

namespace Table

variable {α β : Type}

def empty : Table α := ⟨[], List.nodup_nil⟩

instance : Inhabited (Table α) := ⟨empty⟩

def keys (t : Table α) : List String := t.entries.map Prod.fst

def size (t : Table α) : Nat := t.entries.length

def isEmpty (t : Table α) : Bool := t.entries.isEmpty

/-- The value that the first entry with the name `key` has. -/
def valueAt? (key : String) : List (String × α) → Option α
  | [] => none
  | (k, v) :: rest => if k = key then some v else valueAt? key rest

def get? (t : Table α) (key : String) : Option α := valueAt? key t.entries

def contains (t : Table α) (key : String) : Bool := (t.get? key).isSome

/-- The entries with `key` sent to `value`, in its old place if it has one and else at the end. -/
def put (key : String) (value : α) : List (String × α) → List (String × α)
  | [] => [(key, value)]
  | (k, v) :: rest => if k = key then (key, value) :: rest else (k, v) :: put key value rest

theorem map_fst_put (key : String) (value : α) : ∀ entries : List (String × α),
    (put key value entries).map Prod.fst
      = if key ∈ entries.map Prod.fst then entries.map Prod.fst
        else entries.map Prod.fst ++ [key]
  | [] => by simp [put]
  | (k, v) :: rest => by
    have ih := map_fst_put key value rest
    by_cases h : k = key
    · simp [put, h]
    · have h' : ¬ key = k := fun e => h e.symm
      by_cases hm : key ∈ rest.map Prod.fst
      · rw [if_pos hm] at ih
        rw [if_pos (by simp [h', hm])]
        simp only [put, if_neg h, List.map_cons, ih]
      · rw [if_neg hm] at ih
        rw [if_neg (by simp [h', hm])]
        simp only [put, if_neg h, List.map_cons, ih, List.cons_append]

theorem nodup_put {key : String} {value : α} {entries : List (String × α)}
    (h : (entries.map Prod.fst).Nodup) : ((put key value entries).map Prod.fst).Nodup := by
  rw [map_fst_put]
  split
  · exact h
  · next hm => simpa [List.nodup_append, h] using fun k v hkv e => hm (List.mem_map.2 ⟨_, hkv, e⟩)

def insert (t : Table α) (key : String) (value : α) : Table α :=
  ⟨put key value t.entries, nodup_put t.nodup⟩

/-- The table without `key`. -/
def erase (t : Table α) (key : String) : Table α :=
  ⟨t.entries.filter (·.1 ≠ key), t.nodup.sublist (List.filter_sublist.map Prod.fst)⟩

/-- The table with each value replaced by its image. -/
def map (f : α → β) (t : Table α) : Table β :=
  ⟨t.entries.map fun e => (e.1, f e.2), by simpa [Function.comp_def] using t.nodup⟩

def single (key : String) (value : α) : Table α := empty.insert key value

/-- The entries put one after the other into an empty table. -/
def ofList (entries : List (String × α)) : Table α :=
  entries.foldl (fun t e => t.insert e.1 e.2) empty

/-- The table with each value replaced, or the first failure in the order of the entries. -/
def traverse {ε : Type} (f : String → α → Except ε β) (t : Table α) : Except ε (Table β) := do
  return ofList (← t.entries.mapM fun e => do return (e.1, ← f e.1 e.2))

theorem put_of_not_mem {key : String} {value : α} : ∀ {entries : List (String × α)},
    key ∉ entries.map Prod.fst → put key value entries = entries ++ [(key, value)]
  | [], _ => rfl
  | (k, v) :: rest, h => by
    simp only [List.map_cons, List.mem_cons, not_or] at h
    rw [put, if_neg (fun e => h.1 e.symm), put_of_not_mem h.2, List.cons_append]

theorem entries_foldl_insert : ∀ (entries : List (String × α)) (t : Table α),
    ((t.entries ++ entries).map Prod.fst).Nodup →
      (entries.foldl (fun t e => t.insert e.1 e.2) t).entries = t.entries ++ entries
  | [], t, _ => by simp
  | e :: rest, t, h => by
    have hmem : e.1 ∉ t.entries.map Prod.fst := by
      intro hin
      simp only [List.map_append, List.map_cons, List.nodup_append] at h
      exact h.2.2 _ hin _ (List.mem_cons_self ..) rfl
    have hput : (t.insert e.1 e.2).entries = t.entries ++ [e] := put_of_not_mem hmem
    rw [List.foldl_cons, entries_foldl_insert rest _ (by simpa [hput] using h), hput]
    simp

theorem entries_ofList {entries : List (String × α)} (h : (entries.map Prod.fst).Nodup) :
    (ofList entries).entries = entries := by
  simpa [ofList, empty] using entries_foldl_insert entries empty (by simpa [empty] using h)

theorem ofList_entries (t : Table α) : ofList t.entries = t := by
  have h := entries_ofList t.nodup
  cases t with
  | mk entries nodup =>
    cases hof : ofList entries with
    | mk entries' nodup' =>
      simp only [hof] at h
      subst h
      rfl

theorem valueAt?_put (key other : String) (value : α) : ∀ entries : List (String × α),
    valueAt? other (put key value entries)
      = if other = key then some value else valueAt? other entries
  | [] => by simp [put, valueAt?, eq_comm]
  | (k, v) :: rest => by
    have ih := valueAt?_put key other value rest
    by_cases hk : k = key
    · by_cases h : other = key
      · simp [put, valueAt?, hk, h]
      · have h' : ¬ key = other := fun e => h e.symm
        simp [put, valueAt?, hk, h, h']
    · by_cases ho : k = other
      · have h : ¬ other = key := fun e => hk (ho.trans e)
        simp [put, valueAt?, ho, h]
      · simp [put, valueAt?, hk, ho, ih]

theorem get?_insert (t : Table α) (key other : String) (value : α) :
    (t.insert key value).get? other = if other = key then some value else t.get? other :=
  valueAt?_put key other value t.entries

theorem valueAt?_filter_ne (key other : String) : ∀ entries : List (String × α),
    valueAt? other (entries.filter (·.1 ≠ key))
      = if other = key then none else valueAt? other entries
  | [] => by simp [valueAt?]
  | (k, v) :: rest => by
    have ih := valueAt?_filter_ne key other rest
    by_cases hk : k = key
    · rw [List.filter_cons_of_neg (by simpa using hk), ih]
      by_cases h : other = key
      · simp [h]
      · have h' : ¬ k = other := fun e => h (e.symm.trans hk)
        simp [valueAt?, h, h']
    · rw [List.filter_cons_of_pos (by simpa using hk)]
      by_cases ho : k = other
      · have h : ¬ other = key := fun e => hk (ho.trans e)
        simp [valueAt?, ho, h]
      · simp only [valueAt?, if_neg ho, ih]

theorem get?_erase (t : Table α) (key other : String) :
    (t.erase key).get? other = if other = key then none else t.get? other :=
  valueAt?_filter_ne key other t.entries

end Table

end Deduction

import Deduction.Proofs.Occurrence
import Mathlib.Logic.Basic

/-!
# What a substitution leaves

A substitution that is not refused puts a term in the place of each occurrence, under the
quantifiers that were there before. So the occurrences of the result are those of the terms that
were put in (`Formula.occurrences_replace`), and what is free in it can be told from the formula and
the substitution (`Formula.mem_freeVars_substitute`): no variable that came in was quantified
around its place.

A second substitution then meets the terms that the first has put in. The two together are one
substitution, which has these terms as the second leaves them (`Substitution.andThen`).
-/

namespace Deduction

/-! ## Names and occurrences -/

theorem Leaf.leaves_term : ∀ a : Leaf, a.term.leaves = [a]
  | .var _ => rfl
  | .const _ => rfl

theorem Leaf.WellFormed.term : ∀ {a : Leaf}, a.WellFormed → a.term.WellFormed
  | .var _, h => h
  | .const _, h => h

theorem Leaf.eq_of_name {a b : Leaf} (ha : a.WellFormed) (hb : b.WellFormed)
    (h : a.name = b.name) : a = b := by
  cases a with
  | var x =>
    cases b with
    | var y => exact congrArg var h
    | const c => exact absurd h (isVar_ne_isConst ha hb)
  | const c =>
    cases b with
    | var y => exact absurd h.symm (isVar_ne_isConst hb ha)
    | const d => exact congrArg const h

namespace Term

mutual

theorem mem_vars {x : String} : ∀ {t : Term}, x ∈ t.vars ↔ .var x ∈ t.leaves
  | .var y => by simp [vars, leaves]
  | .const c => by simp [vars, leaves]
  | .app _ args => by rw [vars, leaves, mem_varsOfList]

theorem mem_varsOfList {x : String} : ∀ {ts : List Term},
    x ∈ varsOfList ts ↔ .var x ∈ leavesOfList ts
  | [] => by simp [varsOfList, leavesOfList]
  | t :: ts => by
    rw [varsOfList, leavesOfList, List.mem_append, List.mem_append, mem_vars, mem_varsOfList]

end

mutual

theorem mem_constants {c : String} : ∀ {t : Term}, c ∈ t.constants ↔ .const c ∈ t.leaves
  | .var x => by simp [constants, leaves]
  | .const d => by simp [constants, leaves]
  | .app _ args => by rw [constants, leaves, mem_constantsOfList]

theorem mem_constantsOfList {c : String} : ∀ {ts : List Term},
    c ∈ constantsOfList ts ↔ .const c ∈ leavesOfList ts
  | [] => by simp [constantsOfList, leavesOfList]
  | t :: ts => by
    rw [constantsOfList, leavesOfList, List.mem_append, List.mem_append, mem_constants,
      mem_constantsOfList]

end

mutual

theorem leaves_replace {put : Leaf → Term} : ∀ {t : Term},
    (t.replace put).leaves = t.leaves.flatMap fun a => (put a).leaves
  | .var x => by simp [replace, leaves]
  | .const c => by simp [replace, leaves]
  | .app _ args => by rw [replace, leaves, leaves, leavesOfList_replaceList]

theorem leavesOfList_replaceList {put : Leaf → Term} : ∀ {ts : List Term},
    leavesOfList (replaceList put ts) = (leavesOfList ts).flatMap fun a => (put a).leaves
  | [] => rfl
  | t :: ts => by
    rw [replaceList, leavesOfList, leavesOfList, List.flatMap_append, leaves_replace,
      leavesOfList_replaceList]

end

mutual

theorem replace_eq_self {put : Leaf → Term} : ∀ {t : Term},
    (∀ a ∈ t.leaves, put a = a.term) → t.replace put = t
  | .var x, h => h (.var x) (List.mem_singleton_self _)
  | .const c, h => h (.const c) (List.mem_singleton_self _)
  | .app f _, h => congrArg (app f) (replaceList_eq_self h)

theorem replaceList_eq_self {put : Leaf → Term} : ∀ {ts : List Term},
    (∀ a ∈ leavesOfList ts, put a = a.term) → replaceList put ts = ts
  | [], _ => rfl
  | t :: ts, h => by
    obtain ⟨ht, hts⟩ := List.forall_mem_append.1 h
    rw [replaceList, replace_eq_self ht, replaceList_eq_self hts]

end

end Term

namespace Formula

/-- A variable is free if it occurs where it is not bound. -/
theorem mem_freeVars {x : String} : ∀ {f : Formula},
    x ∈ f.freeVars ↔ ∃ o ∈ f.occurrences, o.leaf = .var x ∧ x ∉ o.binders
  | .equality l r => by
    simp only [freeVars, occurrences, List.mem_map, exists_exists_and_eq_and, List.mem_append,
      Term.mem_vars, exists_eq_right, List.not_mem_nil, not_false_eq_true, and_true]
  | .relation _ args => by
    simp only [freeVars, occurrences, List.mem_map, exists_exists_and_eq_and, Term.mem_varsOfList,
      exists_eq_right, List.not_mem_nil, not_false_eq_true, and_true]
  | .neg f => mem_freeVars (f := f)
  | .binary _ l r => by
    simp only [freeVars, occurrences, List.mem_append, mem_freeVars, or_and_right, exists_or]
  | .quantified _ y f => by
    simp only [freeVars, occurrences, List.mem_filter, decide_eq_true_eq, mem_freeVars (f := f),
      List.mem_map, exists_exists_and_eq_and, Occurrence.within, List.mem_append,
      List.mem_singleton, not_or]
    constructor
    · rintro ⟨⟨o, ho, hleaf, hx⟩, hne⟩
      exact ⟨o, ho, hleaf, hx, hne⟩
    · rintro ⟨o, ho, hleaf, hx, hne⟩
      exact ⟨⟨o, ho, hleaf, hx⟩, hne⟩

theorem mem_constants {c : String} : ∀ {f : Formula},
    c ∈ f.constants ↔ ∃ o ∈ f.occurrences, o.leaf = .const c
  | .equality l r => by
    simp only [constants, occurrences, List.mem_map, exists_exists_and_eq_and, List.mem_append,
      Term.mem_constants, exists_eq_right]
  | .relation _ args => by
    simp only [constants, occurrences, List.mem_map, exists_exists_and_eq_and,
      Term.mem_constantsOfList, exists_eq_right]
  | .neg f => mem_constants (f := f)
  | .binary _ l r => by
    simp only [constants, occurrences, List.mem_append, mem_constants, or_and_right, exists_or]
  | .quantified _ y f => by
    simp only [constants, occurrences, mem_constants (f := f), List.mem_map,
      exists_exists_and_eq_and, Occurrence.within]

/-- The occurrences of what was put in, under the quantifiers around its place. -/
theorem occurrences_replace : ∀ {f : Formula} {put : Occurrence → Term},
    (f.replace put).occurrences
      = f.occurrences.flatMap fun o => (put o).leaves.map (⟨·, o.binders⟩)
  | .equality l r, put => by
    simp only [replace, occurrences, Term.leaves_replace, ← List.flatMap_append, List.map_flatMap,
      List.flatMap_map]
  | .relation _ args, put => by
    simp only [replace, occurrences, Term.leavesOfList_replaceList, List.map_flatMap,
      List.flatMap_map]
  | .neg f, put => occurrences_replace (f := f)
  | .binary _ l r, put => by
    simp only [replace, occurrences, occurrences_replace (f := l), occurrences_replace (f := r),
      List.flatMap_append]
  | .quantified _ x f, put => by
    simp only [replace, occurrences, occurrences_replace (f := f), List.map_flatMap,
      List.flatMap_map, List.map_map]
    rfl

theorem mem_occurrences_replace {f : Formula} {put : Occurrence → Term} {a : Leaf}
    {binders : List String} : ⟨a, binders⟩ ∈ (f.replace put).occurrences ↔
      ∃ o ∈ f.occurrences, a ∈ (put o).leaves ∧ o.binders = binders := by
  simp only [occurrences_replace, List.mem_flatMap, List.mem_map, Occurrence.mk.injEq]
  constructor
  · rintro ⟨o, ho, _, ha, rfl, rfl⟩
    exact ⟨o, ho, ha, rfl⟩
  · rintro ⟨o, ho, ha, rfl⟩
    exact ⟨o, ho, a, ha, rfl, rfl⟩

theorem replace_eq_self : ∀ {f : Formula} {put : Occurrence → Term},
    (∀ o ∈ f.occurrences, put o = o.leaf.term) → f.replace put = f
  | .equality l r, put, h => by
    have hleaf : ∀ a ∈ l.leaves ++ r.leaves, put ⟨a, []⟩ = a.term := List.forall_mem_map.1 h
    obtain ⟨hl, hr⟩ := List.forall_mem_append.1 hleaf
    rw [replace, Term.replace_eq_self hl, Term.replace_eq_self hr]
  | .relation s args, put, h => by
    have hleaf : ∀ a ∈ Term.leavesOfList args, put ⟨a, []⟩ = a.term := List.forall_mem_map.1 h
    rw [replace, Term.replaceList_eq_self hleaf]
  | .neg f, put, h => congrArg neg (replace_eq_self (f := f) h)
  | .binary op l r, put, h => by
    obtain ⟨hl, hr⟩ := List.forall_mem_append.1 h
    rw [replace, replace_eq_self hl, replace_eq_self hr]
  | .quantified q x f, put, h => by
    have hbody : ∀ o ∈ f.occurrences, put (o.within x) = o.leaf.term := List.forall_mem_map.1 h
    rw [replace, replace_eq_self hbody]

end Formula

/-! ## What is left and what comes in -/

/-- The constant or variable stands somewhere in the formula, where it is not bound. -/
def Formula.Mentions (f : Formula) (a : Leaf) : Prop :=
  ∃ o ∈ f.occurrences, o.leaf = a ∧ o.Free

namespace Substitution

variable {m : Substitution} {o : Occurrence} {t : Term}

theorem replacement?_eq_some :
    m.replacement? o = some t ↔ o.Free ∧ m.get? o.leaf.name = some t := by
  by_cases hfree : o.Free <;> simp [replacement?, hfree]

theorem putAt_of_some (h : m.replacement? o = some t) : m.putAt o = t := by
  rw [putAt, h, Option.getD_some]

theorem putAt_of_none (h : m.replacement? o = none) : m.putAt o = o.leaf.term := by
  rw [putAt, h, Option.getD_none]

end Substitution

namespace Formula

variable {f g : Formula} {m : Substitution} {forbidden : List String}

theorem mentions_var {x : String} : f.Mentions (.var x) ↔ x ∈ f.freeVars := by
  rw [mem_freeVars]
  refine exists_congr fun o => and_congr_right fun _ => and_congr_right fun hleaf => ?_
  rw [Occurrence.Free, hleaf]

theorem mentions_const {c : String} : f.Mentions (.const c) ↔ c ∈ f.constants := by
  rw [mem_constants]
  refine exists_congr fun o => and_congr_right fun _ => and_iff_left_of_imp fun hleaf => ?_
  rw [Occurrence.Free, hleaf]
  trivial

/-- The names that a substitution looks at. -/
theorem exists_mentions {P : String → Prop} :
    (∃ a, f.Mentions a ∧ P a.name) ↔ ∃ n, (n ∈ f.freeVars ∨ n ∈ f.constants) ∧ P n := by
  simp only [← mentions_var, ← mentions_const]
  constructor
  · rintro ⟨a, ha, hP⟩
    cases a with
    | var x => exact ⟨x, .inl ha, hP⟩
    | const c => exact ⟨c, .inr ha, hP⟩
  · rintro ⟨n, ha | ha, hP⟩
    · exact ⟨.var n, ha, hP⟩
    · exact ⟨.const n, ha, hP⟩

/-- What the result mentions was there before and had no replacement, or came in with the
replacement of something that was there. -/
theorem mentions_substitute (hf : f.WellFormed) (h : f.substitute m forbidden = .ok g) {a : Leaf} :
    g.Mentions a ↔ (f.Mentions a ∧ m.get? a.name = none) ∨
      ∃ n, (n ∈ f.freeVars ∨ n ∈ f.constants) ∧ ∃ t, m.get? n = some t ∧ a ∈ t.leaves := by
  obtain ⟨hspared, rfl⟩ := (substitute_eq_ok_iff hf).1 h
  rw [← exists_mentions]
  constructor
  · rintro ⟨⟨_, binders⟩, hmem, rfl, hfree⟩
    obtain ⟨o, ho, ha, rfl⟩ := mem_occurrences_replace.1 hmem
    cases hr : m.replacement? o with
    | none =>
      rw [Substitution.putAt_of_none hr, Leaf.leaves_term, List.mem_singleton] at ha
      subst ha
      refine .inl ⟨⟨o, ho, rfl, hfree⟩, ?_⟩
      rwa [Substitution.replacement?, if_pos hfree] at hr
    | some t =>
      rw [Substitution.putAt_of_some hr] at ha
      obtain ⟨hfree', hget⟩ := Substitution.replacement?_eq_some.1 hr
      exact .inr ⟨o.leaf, ⟨o, ho, rfl, hfree'⟩, t, hget, ha⟩
  · rintro (⟨⟨o, ho, rfl, hfree⟩, hnone⟩ | ⟨_, ⟨o, ho, rfl, hfree⟩, t, hget, ha⟩)
    · have hr : m.replacement? o = none := by rw [Substitution.replacement?, if_pos hfree, hnone]
      refine ⟨o, mem_occurrences_replace.2 ⟨o, ho, ?_, rfl⟩, rfl, hfree⟩
      rw [Substitution.putAt_of_none hr, Leaf.leaves_term]
      exact List.mem_singleton_self _
    · have hr : m.replacement? o = some t := Substitution.replacement?_eq_some.2 ⟨hfree, hget⟩
      refine ⟨⟨a, o.binders⟩, mem_occurrences_replace.2 ⟨o, ho, ?_, rfl⟩, rfl, ?_⟩
      · rwa [Substitution.putAt_of_some hr]
      -- A variable that is bound in its new place would have been refused.
      · cases a with
        | var y => exact fun hy => hspared o ho y ⟨t, hr, Term.mem_vars.2 ha, .inr hy⟩
        | const c => trivial

theorem mem_freeVars_substitute (hf : f.WellFormed) (h : f.substitute m forbidden = .ok g)
    {y : String} : y ∈ g.freeVars ↔ (y ∈ f.freeVars ∧ m.get? y = none) ∨
      ∃ n, (n ∈ f.freeVars ∨ n ∈ f.constants) ∧ ∃ t, m.get? n = some t ∧ y ∈ t.vars := by
  rw [← mentions_var, mentions_substitute hf h, mentions_var]
  simp only [Leaf.name, Term.mem_vars]

theorem mem_constants_substitute (hf : f.WellFormed) (h : f.substitute m forbidden = .ok g)
    {c : String} : c ∈ g.constants ↔ (c ∈ f.constants ∧ m.get? c = none) ∨
      ∃ n, (n ∈ f.freeVars ∨ n ∈ f.constants) ∧ ∃ t, m.get? n = some t ∧ c ∈ t.constants := by
  rw [← mentions_const, mentions_substitute hf h, mentions_const]
  simp only [Leaf.name, Term.mem_constants]

/-- A name in its own place changes nothing. -/
theorem substitute_single_self (hf : f.WellFormed) {a : Leaf} (ha : a.WellFormed)
    (hout : a.name ∉ forbidden) : f.substitute (.single a.name a.term) forbidden = .ok f := by
  have hself : ∀ o ∈ f.occurrences, ∀ t,
      Substitution.replacement? (.single a.name a.term) o = some t →
        o.Free ∧ o.leaf = a ∧ t = a.term := by
    intro o ho t ht
    obtain ⟨hfree, hget⟩ := Substitution.replacement?_eq_some.1 ht
    obtain ⟨hname, rfl⟩ := Table.get?_single_eq_some.1 hget
    exact ⟨hfree, Leaf.eq_of_name (hf.leaf ho) ha hname, rfl⟩
  refine (substitute_eq_ok_iff hf).2 ⟨?_, (replace_eq_self fun o ho => ?_).symm⟩
  · rintro o ho y ⟨t, ht, hy, hbad⟩
    obtain ⟨hfree, hleaf, rfl⟩ := hself o ho t ht
    rw [Term.mem_vars, Leaf.leaves_term, List.mem_singleton] at hy
    rw [Occurrence.Free, hleaf, ← hy] at hfree
    rw [← hy] at hout
    exact hbad.elim hout hfree
  · cases hr : Substitution.replacement? (.single a.name a.term) o with
    | none => exact Substitution.putAt_of_none hr
    | some t =>
      obtain ⟨-, rfl, rfl⟩ := hself o ho t hr
      exact Substitution.putAt_of_some hr

/-- The free variables of the result are those of the formula that have no replacement, and those of
the replacements of its free variables and constants. So a term without variables in the place of a
name takes away that name and nothing else. -/
theorem freeVars_substitute (hf : f.WellFormed) :
    (∀ m forbidden g, f.substitute m forbidden = .ok g → ∀ y, y ∈ g.freeVars ↔
      (y ∈ f.freeVars ∧ m.get? y = none) ∨
        ∃ n, (n ∈ f.freeVars ∨ n ∈ f.constants) ∧ ∃ t, m.get? n = some t ∧ y ∈ t.vars) ∧
    ∀ x t forbidden, t.vars = [] → ∃ g, f.substitute (.single x t) forbidden = .ok g ∧
      ∀ y, y ∈ g.freeVars ↔ y ∈ f.freeVars ∧ y ≠ x := by
  refine ⟨fun m forbidden g h y => mem_freeVars_substitute hf h, fun x t forbidden ht => ?_⟩
  have hground : ∀ n u, Table.get? (.single x t) n = some u → u.vars = [] := by
    intro n u hu
    obtain ⟨-, rfl⟩ := Table.get?_single_eq_some.1 hu
    exact ht
  have hok : f.substitute (.single x t) forbidden
      = .ok (f.replace (Substitution.putAt (.single x t))) := by
    refine (substitute_eq_ok_iff hf).2 ⟨?_, rfl⟩
    rintro o - y ⟨u, hu, hy, -⟩
    rw [hground _ u (Substitution.replacement?_eq_some.1 hu).2] at hy
    cases hy
  refine ⟨_, hok, fun y => ?_⟩
  have hnone : Table.get? (.single x t) y = none ↔ y ≠ x := by simp [Table.get?_single]
  rw [mem_freeVars_substitute hf hok, hnone, or_iff_left]
  rintro ⟨n, -, u, hu, hy⟩
  rw [hground n u hu] at hy
  cases hy

/-- In `(Ax[R(x,c)]&S(x,y))` with `p(z,d)` for `c`, `z` for `y` and `d` for `x`, the `x` that is
bound stays, the other one goes, and `z` comes in twice. -/
theorem freeVars_substitute_bound :
    let t : Term := .app ⟨"p", 2⟩ [.var "z", .const "d"]
    let m : Substitution := .ofList [("c", t), ("y", .var "z"), ("x", .const "d"), ("w", .var "u")]
    let f := conj (all "x" (holds "R" [.var "x", .const "c"])) (holds "S" [.var "x", .var "y"])
    let g := conj (all "x" (holds "R" [.var "x", t])) (holds "S" [.const "d", .var "z"])
    f.WellFormed ∧ f.substitute m ["y"] = .ok g ∧
      (∀ y, y ∈ g.freeVars ↔ (y ∈ f.freeVars ∧ m.get? y = none) ∨
        ∃ n, (n ∈ f.freeVars ∨ n ∈ f.constants) ∧ ∃ t, m.get? n = some t ∧ y ∈ t.vars) ∧
      ∃ g', f.substitute (.single "x" (.const "d")) ["x"] = .ok g' ∧
        ∀ y, y ∈ g'.freeVars ↔ y ∈ f.freeVars ∧ y ≠ "x" := by
  intro t m f g
  have hf : f.WellFormed := by decide
  have hok : f.substitute m ["y"] = .ok g := rfl
  exact ⟨hf, hok, (freeVars_substitute hf).1 m ["y"] g hok,
    (freeVars_substitute hf).2 "x" (.const "d") ["x"] rfl⟩

end Formula

/-! ## One substitution after another -/

namespace Substitution

/-- The term with its replacements, where nothing is forbidden. -/
def apply (m : Substitution) (t : Term) : Term := t.replace fun a => m.putAt ⟨a, []⟩

/-- The replacements of `m₁` as `m₂` leaves them, and those of `m₂` for the other names. -/
def andThen (m₁ m₂ : Substitution) : Substitution := m₂.insertAll (m₁.map m₂.apply).entries

theorem substitute_eq_apply (m : Substitution) (t : Term) :
    t.substitute m [] = .ok (m.apply t) := by
  have hnone : (t.leaves.findSome? fun a => m.offenderAt? [] ⟨a, []⟩) = none := by
    refine List.findSome?_eq_none_iff.2 fun a _ => offenderAt?_eq_none.2 ?_
    rintro y ⟨u, -, -, hy | hy⟩ <;> cases hy
  rw [Term.substitute_eq_report, hnone]
  rfl

theorem get?_andThen (m₁ m₂ : Substitution) (n : String) :
    (m₁.andThen m₂).get? n = ((m₁.get? n).map m₂.apply).or (m₂.get? n) := by
  have hentries : Table.valueAt? n (m₁.map m₂.apply).entries = (m₁.get? n).map m₂.apply :=
    Table.get?_map m₂.apply m₁ n
  rw [andThen, Table.get?_insertAll n m₂ (m₁.map m₂.apply).nodup, hentries]

theorem joinsAt_andThen (m₁ m₂ : Substitution) (forbidden : List String) (n : String) :
    JoinsAt m₁ m₂ (m₁.andThen m₂) forbidden n := by
  constructor
  · intro hnone
    rw [get?_andThen, hnone]
    rfl
  · intro t t' ht _ h'
    have happly : t.substitute m₂ [] = .ok t' := Term.substitute_of_subset (List.nil_subset _) h'
    rw [substitute_eq_apply, Except.ok.injEq] at happly
    rw [get?_andThen, ht, ← happly]
    rfl

/-- What `m₁` and then `m₂` make of a formula, one substitution makes of it at once: the one that
has the terms of `m₁` with `m₂` applied to them, and the terms of `m₂` for the other names. No
constant in the terms of `m₁` may have the name of a variable. -/
theorem andThen_substitute {m₁ : Substitution} (hm : m₁.ConstantsApart) (m₂ : Substitution) :
    (∀ n t, m₁.get? n = some t →
      ∃ t', t.substitute m₂ [] = .ok t' ∧ (m₁.andThen m₂).get? n = some t') ∧
    (∀ n, m₁.get? n = none → (m₁.andThen m₂).get? n = m₂.get? n) ∧
    ∀ (f g h : Formula) (forbidden : List String), f.WellFormed →
      f.substitute m₁ forbidden = .ok g → g.substitute m₂ forbidden = .ok h →
      f.substitute (m₁.andThen m₂) forbidden = .ok h := by
  refine ⟨fun n t ht => ⟨m₂.apply t, m₂.substitute_eq_apply t, ?_⟩, fun n hn => ?_, ?_⟩
  · rw [get?_andThen, ht]
    rfl
  · exact (joinsAt_andThen m₁ m₂ [] n).1 hn
  · intro f g h forbidden hf h₁ h₂
    exact Formula.substitute_trans hf hm (fun x _ => joinsAt_andThen m₁ m₂ forbidden x)
      (fun c _ => joinsAt_andThen m₁ m₂ forbidden c) h₁ h₂

/-- `(Ax[R(x,c)]&S(x,y))` with `p(y)` for `c` and `d` for `x`, then `q(c)` for `y`, `w` for `d` and
`b` for `x`. The second substitution meets the `y` and the `d` that came in with the first, and
neither of them has a term for the bound `x`. -/
theorem andThen_substitute_introduced :
    let p : Term → Term := fun t => .app ⟨"p", 1⟩ [t]
    let q : Term → Term := fun t => .app ⟨"q", 1⟩ [t]
    let m₁ : Substitution := .ofList [("c", p (.var "y")), ("x", .const "d")]
    let m₂ : Substitution := .ofList [("y", q (.const "c")), ("d", .var "w"), ("x", .const "b")]
    let f : Term → Term → Term → Formula := fun t u v => .conj
      (.all "x" (.holds "R" [.var "x", t])) (.holds "S" [u, v])
    let g := f (p (.var "y")) (.const "d") (.var "y")
    let h := f (p (q (.const "c"))) (.var "w") (q (.const "c"))
    m₁.ConstantsApart ∧ (f (.const "c") (.var "x") (.var "y")).WellFormed ∧
      (f (.const "c") (.var "x") (.var "y")).substitute m₁ ["z"] = .ok g ∧
      g.substitute m₂ ["z"] = .ok h ∧
      (f (.const "c") (.var "x") (.var "y")).substitute (m₁.andThen m₂) ["z"] = .ok h := by
  intro p q m₁ m₂ f g h
  have hm : m₁.ConstantsApart := by decide
  have hf : (f (.const "c") (.var "x") (.var "y")).WellFormed := by decide
  have h₁ : (f (.const "c") (.var "x") (.var "y")).substitute m₁ ["z"] = .ok g := rfl
  have h₂ : g.substitute m₂ ["z"] = .ok h := rfl
  exact ⟨hm, hf, h₁, h₂, (andThen_substitute hm m₂).2.2 _ g h ["z"] hf h₁ h₂⟩

/-- `Ax[R(c)]` with the constant `x` for `c`, then `d` for `x`. Under the quantifier the second
substitution has no term for `x`, so the constant stays. It does not stay in the term that `m₁` has
for `c`, where there is no quantifier. -/
theorem andThen_substitute_constant_bound :
    let m₁ : Substitution := .single "c" (.const "x")
    let m₂ : Substitution := .single "x" (.const "d")
    let f : Term → Formula := fun t => .all "x" (.holds "R" [t])
    (f (.const "c")).WellFormed ∧ ¬ m₁.ConstantsApart ∧
      (f (.const "c")).substitute m₁ [] = .ok (f (.const "x")) ∧
      (f (.const "x")).substitute m₂ [] = .ok (f (.const "x")) ∧
      m₁.andThen m₂ = .ofList [("x", .const "d"), ("c", .const "d")] ∧
      (f (.const "c")).substitute (m₁.andThen m₂) [] = .ok (f (.const "d")) ∧
      f (.const "d") ≠ f (.const "x") := by
  intro m₁ m₂ f
  exact ⟨by decide, by decide, rfl, rfl, by decide, rfl, by decide⟩

end Substitution

end Deduction

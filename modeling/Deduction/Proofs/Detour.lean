import Deduction.Proofs.Replacement
import Mathlib.Tactic.SplitIfs

/-!
# Substitution by way of other names

If one substitution went well, a second one after it can do what a third does at once, and then it
fails where the third fails and for the same variable (`Formula.substitute_of_splits`). This is so
when the first puts in names that the formula does not have, and the second replaces these names.
A term is put for one name by way of another (`Formula.substitute_detour`), and for a variable that
shows a name of the source of a formula (`Formula.substitute_insert`).

Whether a substitution goes well depends on the variables that it brings in only
(`Formula.exists_substitute`). A name that does not stand in the formula brings in nothing that
could be caught, so the detour by way of such a name can always be taken.
-/

namespace Deduction

/-- At the name `n`, what `m₁` puts in is turned by `m₂` into what `m` puts in, or is refused with
it, and this goes on under more quantifiers, as long as `m₁` is let through by them. -/
structure Substitution.SplitsAt (m₁ m₂ m : Substitution) (forbidden₁ forbidden : List String)
    (n : String) : Prop where
  absent : m₁.get? n = none → m₂.get? n = m.get? n
  present : ∀ u, m₁.get? n = some u → ∃ t, m.get? n = some t ∧
    ∀ binders, (∀ x ∈ u.vars, x ∉ binders ++ forbidden₁) →
      u.substitute m₂ (binders ++ forbidden) = t.admit (binders ++ forbidden)

/-- What `m₁` puts in under a quantifier mentions its variable neither free nor, being well formed,
as a constant. -/
theorem Substitution.SplitsAt.erase {m₁ m₂ m : Substitution} (hm : m₁.WellFormed)
    {forbidden₁ forbidden : List String} {n x : String} (hx : isVar x)
    (h : n ≠ x → SplitsAt m₁ m₂ m forbidden₁ forbidden n) :
    SplitsAt (m₁.erase x) (m₂.erase x) (m.erase x) (x :: forbidden₁) (x :: forbidden) n := by
  by_cases hn : n = x
  · constructor <;> simp [Table.get?_erase, hn]
  obtain ⟨habsent, hpresent⟩ := h hn
  constructor
  · simpa only [Table.get?_erase, if_neg hn] using habsent
  · simp only [Table.get?_erase, if_neg hn]
    intro u hu
    obtain ⟨t, ht, hut⟩ := hpresent u hu
    refine ⟨t, ht, fun binders hv => ?_⟩
    have hdrop : u.substitute (m₂.erase x) (binders ++ x :: forbidden)
        = u.substitute m₂ (binders ++ x :: forbidden) := by
      refine Term.substitute_congr (fun y hy => ?_) fun c hc => ?_
      · have hne : y ≠ x := fun e => hv y hy (by simp [e])
        rw [Table.get?_erase, if_neg hne]
      · rw [Table.get?_erase, if_neg (isVar_ne_isConst hx ((hm.get? hu).isConst hc)).symm]
    have h := hut (binders ++ [x]) (by simpa using hv)
    rw [List.append_assoc, List.singleton_append] at h
    rw [hdrop, h]

namespace Term

mutual

theorem substitute_of_splits {m₁ m₂ m : Substitution} {forbidden₁ forbidden : List String} :
    ∀ {t t' : Term}, (∀ x ∈ t.vars, Substitution.SplitsAt m₁ m₂ m forbidden₁ forbidden x) →
      (∀ c ∈ t.constants, Substitution.SplitsAt m₁ m₂ m forbidden₁ forbidden c) →
      t.substitute m₁ forbidden₁ = .ok t' → t'.substitute m₂ forbidden = t.substitute m forbidden
  | .var x, t', hv, _, h => by
    obtain ⟨habsent, hpresent⟩ := hv x (by simp [vars])
    rcases substitute_var_eq_ok.1 h with ⟨hx, hav⟩ | ⟨hx, rfl⟩
    · obtain ⟨t, ht, hut⟩ := hpresent t' hx
      simp only [substitute, ht]
      exact hut [] hav
    · simp only [substitute, habsent hx]
  | .const c, t', _, hc, h => by
    obtain ⟨habsent, hpresent⟩ := hc c (by simp [constants])
    rcases substitute_const_eq_ok.1 h with ⟨hx, hav⟩ | ⟨hx, rfl⟩
    · obtain ⟨t, ht, hut⟩ := hpresent t' hx
      simp only [substitute, ht]
      exact hut [] hav
    · simp only [substitute, habsent hx]
  | .app f args, t', hv, hc, h => by
    simp only [vars] at hv
    simp only [constants] at hc
    simp only [substitute, bind_eq_ok, pure_eq_ok] at h
    obtain ⟨args', hargs, rfl⟩ := h
    simp only [substitute, substituteList_of_splits hv hc hargs]

theorem substituteList_of_splits {m₁ m₂ m : Substitution} {forbidden₁ forbidden : List String} :
    ∀ {ts ts' : List Term},
      (∀ x ∈ varsOfList ts, Substitution.SplitsAt m₁ m₂ m forbidden₁ forbidden x) →
      (∀ c ∈ constantsOfList ts, Substitution.SplitsAt m₁ m₂ m forbidden₁ forbidden c) →
      substituteList m₁ forbidden₁ ts = .ok ts' →
      substituteList m₂ forbidden ts' = substituteList m forbidden ts
  | [], ts', _, _, h => by
    simp only [substituteList, Except.ok.injEq] at h
    rw [← h]
    rfl
  | t :: ts, ts', hv, hc, h => by
    simp only [varsOfList, List.mem_append] at hv
    simp only [constantsOfList, List.mem_append] at hc
    simp only [substituteList, bind_eq_ok, pure_eq_ok] at h
    obtain ⟨u, hu, us, hus, rfl⟩ := h
    have hfirst : u.substitute m₂ forbidden = t.substitute m forbidden :=
      substitute_of_splits (fun x hx => hv x (.inl hx)) (fun c hx => hc c (.inl hx)) hu
    have hrest : substituteList m₂ forbidden us = substituteList m forbidden ts :=
      substituteList_of_splits (fun x hx => hv x (.inr hx)) (fun c hx => hc c (.inr hx)) hus
    simp only [substituteList, hfirst, hrest]

end

end Term

theorem Formula.substitute_of_splits : ∀ {f g : Formula} {m₁ m₂ m : Substitution}
    {forbidden₁ forbidden : List String}, f.WellFormed → m₁.WellFormed →
      (∀ x ∈ f.freeVars, Substitution.SplitsAt m₁ m₂ m forbidden₁ forbidden x) →
      (∀ c ∈ f.constants, Substitution.SplitsAt m₁ m₂ m forbidden₁ forbidden c) →
      f.substitute m₁ forbidden₁ = .ok g → g.substitute m₂ forbidden = f.substitute m forbidden
  | .equality l r, g, m₁, m₂, m, _, forbidden, _, _, hv, hc, h => by
    simp only [freeVars, List.mem_append] at hv
    simp only [constants, List.mem_append] at hc
    simp only [substitute, bind_eq_ok, pure_eq_ok] at h
    obtain ⟨l', hl, r', hr, rfl⟩ := h
    have hleft : l'.substitute m₂ forbidden = l.substitute m forbidden :=
      Term.substitute_of_splits (fun x hx => hv x (.inl hx)) (fun c hx => hc c (.inl hx)) hl
    have hright : r'.substitute m₂ forbidden = r.substitute m forbidden :=
      Term.substitute_of_splits (fun x hx => hv x (.inr hx)) (fun c hx => hc c (.inr hx)) hr
    simp only [substitute, hleft, hright]
  | .relation s args, g, _, _, _, _, _, _, _, hv, hc, h => by
    simp only [freeVars] at hv
    simp only [constants] at hc
    simp only [substitute, bind_eq_ok, pure_eq_ok] at h
    obtain ⟨args', hargs, rfl⟩ := h
    simp only [substitute, Term.substituteList_of_splits hv hc hargs]
  | .neg f, g, _, _, _, _, _, hf, hm, hv, hc, h => by
    simp only [substitute, bind_eq_ok, pure_eq_ok] at h
    obtain ⟨f', hf', rfl⟩ := h
    simp only [substitute, substitute_of_splits (f := f) hf hm hv hc hf']
  | .binary op l r, g, m₁, m₂, m, _, forbidden, hf, hm, hv, hc, h => by
    simp only [freeVars, List.mem_append] at hv
    simp only [constants, List.mem_append] at hc
    simp only [substitute, bind_eq_ok, pure_eq_ok] at h
    obtain ⟨l', hl, r', hr, rfl⟩ := h
    have hleft : l'.substitute m₂ forbidden = l.substitute m forbidden :=
      substitute_of_splits hf.1 hm (fun x hx => hv x (.inl hx)) (fun c hx => hc c (.inl hx)) hl
    have hright : r'.substitute m₂ forbidden = r.substitute m forbidden :=
      substitute_of_splits hf.2 hm (fun x hx => hv x (.inr hx)) (fun c hx => hc c (.inr hx)) hr
    simp only [substitute, hleft, hright]
  | .quantified q x f, g, m₁, m₂, m, _, forbidden, hf, hm, hv, hc, h => by
    simp only [freeVars, List.mem_filter, decide_eq_true_eq] at hv
    simp only [constants] at hc
    simp only [substitute, bind_eq_ok, pure_eq_ok] at h
    obtain ⟨f', hf', rfl⟩ := h
    have hbody : f'.substitute (m₂.erase x) (x :: forbidden)
        = f.substitute (m.erase x) (x :: forbidden) :=
      substitute_of_splits hf.2 (hm.erase x)
        (fun y hy => .erase hm hf.1 fun hne => hv y ⟨hy, hne⟩)
        (fun c hx => .erase hm hf.1 fun _ => hc c hx) hf'
    simp only [substitute, hbody]

/-! ## By way of one name -/

/-- To put a term for `z` where `z` was put for `x` is to put it for `x`. -/
theorem Formula.substitute_detour {f g : Formula} {x z : String} {u t : Term}
    {forbidden₁ forbidden : List String} (hf : f.WellFormed) (hx : Substitution.admits x)
    (hu : u.WellFormed) (hname : u = .var z ∨ u = .const z) (hfree : z ∉ f.freeVars)
    (hconst : z ∉ f.constants) (h : f.substitute (.single x u) forbidden₁ = .ok g) :
    g.substitute (.single z t) forbidden = f.substitute (.single x t) forbidden := by
  have hsplits : ∀ n, n ≠ z →
      Substitution.SplitsAt (.single x u) (.single z t) (.single x t) forbidden₁ forbidden n := by
    intro n hn
    constructor
    · intro hnone
      rw [Table.get?_single] at hnone
      split_ifs at hnone with hnx
      rw [Table.get?_single, Table.get?_single, if_neg hn, if_neg hnx]
    · intro u' hu'
      obtain ⟨hnx, rfl⟩ := Table.get?_single_eq_some.1 hu'
      refine ⟨t, Table.get?_single_eq_some.2 ⟨hnx, rfl⟩, fun binders _ => ?_⟩
      rcases hname with rfl | rfl
      · simp only [Term.substitute, Table.get?_single, if_true]
      · simp only [Term.substitute, Table.get?_single, if_true]
  exact substitute_of_splits hf (.single hx hu)
    (fun n hn => hsplits n fun e => hfree (e ▸ hn))
    (fun c hc => hsplits c fun e => hconst (e ▸ hc)) h

/-! ## Variables that show a name -/

/-- Under `m` the variable `y` stands where `f` has `x` and nowhere else. -/
structure Substitution.Shows (m : Substitution) (f : Formula) (x y : String) : Prop where
  here : m.get? x = some (.var y) ∨ m.get? x = none ∧ x = y
  elsewhere : ∀ n t, n ≠ x → m.get? n = some t → y ∉ t.vars
  unmapped : y ∈ f.freeVars → y = x

theorem Substitution.Shows.insert {m : Substitution} {f : Formula} {x y : String}
    (h : m.Shows f x y) {n : String} {t : Term} (hn : n ≠ x) (ht : y ∉ t.vars) :
    Shows (m.insert n t) f x y := by
  refine ⟨?_, fun n' t' hne ht' => ?_, h.unmapped⟩
  · rw [Table.get?_insert, if_neg hn.symm]
    exact h.here
  · rw [Table.get?_insert] at ht'
    split at ht'
    · cases ht'
      exact ht
    · exact h.elsewhere n' t' hne ht'

/-- To put a term for a variable that shows one name is to put it for the name. -/
theorem Formula.substitute_insert {f g : Formula} {m : Substitution} {x y : String} {t : Term}
    {forbidden : List String} (hf : f.WellFormed) (hm : m.WellFormed) (hy : isVar y)
    (hshows : m.Shows f x y) (h : f.substitute m forbidden = .ok g) :
    g.substitute (.single y t) forbidden = f.substitute (m.insert x t) forbidden := by
  have hsplits : ∀ n, (n = y → n = x) →
      Substitution.SplitsAt m (.single y t) (m.insert x t) forbidden forbidden n := by
    intro n hn
    by_cases hnx : n = x
    · subst hnx
      rcases hshows.here with hx | ⟨hx, rfl⟩
      · refine ⟨fun hnone => ?_, fun u hu => ⟨t, by rw [Table.get?_insert, if_pos rfl], ?_⟩⟩
        · rw [hx] at hnone
          cases hnone
        · rw [hx] at hu
          cases hu
          intro binders _
          simp only [Term.substitute, Table.get?_single, if_true]
      · refine ⟨fun _ => ?_, fun u hu => ?_⟩
        · rw [Table.get?_single, Table.get?_insert, if_pos rfl, if_pos rfl]
        · rw [hx] at hu
          cases hu
    · refine ⟨fun hnone => ?_, fun u hu => ⟨u, ?_, fun binders hv => ?_⟩⟩
      · rw [Table.get?_single, Table.get?_insert, if_neg hnx, hnone, if_neg fun e => hnx (hn e)]
      · rw [Table.get?_insert, if_neg hnx, hu]
      · have hself : u.substitute (.single y t) (binders ++ forbidden) = .ok u := by
          refine Term.substitute_eq_self (fun z hz => ?_) fun c hc => ?_
          · rw [Table.get?_single, if_neg]
            rintro rfl
            exact hshows.elsewhere n u hnx hu hz
          · rw [Table.get?_single, if_neg (isVar_ne_isConst hy ((hm.get? hu).isConst hc)).symm]
        rw [hself, eq_comm, Term.admit_eq_ok]
        exact ⟨rfl, hv⟩
  refine substitute_of_splits hf hm (fun n hn => hsplits n ?_) (fun c hc => hsplits c ?_) h
  · rintro rfl
    exact hshows.unmapped hn
  · intro e
    exact absurd e.symm (isVar_ne_isConst hy (hf.isConst hc))

/-! ## Whether it goes well -/

/-- Each term that `m'` puts in is put in by `m` too, or mentions none of the names. -/
def Substitution.NoWorse (m' m : Substitution) (names : List String) : Prop :=
  ∀ n t, m'.get? n = some t → m.get? n = some t ∨ ∀ x ∈ t.vars, x ∉ names

theorem Substitution.NoWorse.mono {m' m : Substitution} {names names' : List String}
    (h : m'.NoWorse m names) (hsub : names' ⊆ names) : m'.NoWorse m names' :=
  fun n t hn => (h n t hn).imp_right fun hv x hx hmem => hv x hx (hsub hmem)

theorem Substitution.NoWorse.erase {m' m : Substitution} {names : List String}
    (h : m'.NoWorse m names) (y : String) : NoWorse (m'.erase y) (m.erase y) names := by
  intro n t hn
  rw [Table.get?_erase] at hn ⊢
  split_ifs at hn ⊢
  exact h n t hn

theorem Substitution.NoWorse.insert {m' m : Substitution} {names : List String}
    (h : m'.NoWorse m names) {x : String} {t : Term}
    (hx : m.get? x = some t ∨ ∀ y ∈ t.vars, y ∉ names) : NoWorse (m'.insert x t) m names := by
  intro n u hn
  rw [Table.get?_insert] at hn
  split_ifs at hn with hnx
  · cases hn
    rw [hnx]
    exact hx
  · exact h n u hn

namespace Term

mutual

theorem exists_substitute {m m' : Substitution} {forbidden : List String}
    (hm : m'.NoWorse m forbidden) : ∀ {t t' : Term}, t.substitute m forbidden = .ok t' →
      ∃ t'', t.substitute m' forbidden = .ok t''
  | .var x, t', h => by
    cases hx : m'.get? x with
    | none => exact ⟨_, substitute_var_eq_ok.2 (.inr ⟨hx, rfl⟩)⟩
    | some u =>
      refine ⟨u, substitute_var_eq_ok.2 (.inl ⟨hx, (hm x u hx).elim (fun hu => ?_) id⟩)⟩
      simp only [substitute, hu, admit_eq_ok] at h
      exact h.2
  | .const c, t', h => by
    cases hc : m'.get? c with
    | none => exact ⟨_, substitute_const_eq_ok.2 (.inr ⟨hc, rfl⟩)⟩
    | some u =>
      refine ⟨u, substitute_const_eq_ok.2 (.inl ⟨hc, (hm c u hc).elim (fun hu => ?_) id⟩)⟩
      simp only [substitute, hu, admit_eq_ok] at h
      exact h.2
  | .app f args, t', h => by
    simp only [substitute, bind_eq_ok, pure_eq_ok] at h ⊢
    obtain ⟨args', hargs, rfl⟩ := h
    obtain ⟨args'', hargs'⟩ := exists_substituteList hm hargs
    exact ⟨_, args'', hargs', rfl⟩

theorem exists_substituteList {m m' : Substitution} {forbidden : List String}
    (hm : m'.NoWorse m forbidden) : ∀ {ts ts' : List Term},
      substituteList m forbidden ts = .ok ts' → ∃ ts'', substituteList m' forbidden ts = .ok ts''
  | [], _, _ => ⟨[], rfl⟩
  | t :: ts, ts', h => by
    simp only [substituteList, bind_eq_ok, pure_eq_ok] at h ⊢
    obtain ⟨u, hu, us, hus, rfl⟩ := h
    obtain ⟨u', hu'⟩ := exists_substitute hm hu
    obtain ⟨us', hus'⟩ := exists_substituteList hm hus
    exact ⟨_, u', hu', us', hus', rfl⟩

end

end Term

theorem Formula.exists_substitute : ∀ {f g : Formula} {m m' : Substitution}
    {forbidden : List String}, m'.NoWorse m (f.vars ++ forbidden) →
      f.substitute m forbidden = .ok g → ∃ g', f.substitute m' forbidden = .ok g'
  | .equality l r, g, m, m', forbidden, hm, h => by
    have hterm : m'.NoWorse m forbidden := hm.mono (List.subset_append_right ..)
    simp only [substitute, bind_eq_ok, pure_eq_ok] at h ⊢
    obtain ⟨l', hl, r', hr, rfl⟩ := h
    obtain ⟨l'', hl'⟩ := Term.exists_substitute hterm hl
    obtain ⟨r'', hr'⟩ := Term.exists_substitute hterm hr
    exact ⟨_, l'', hl', r'', hr', rfl⟩
  | .relation s args, g, m, m', forbidden, hm, h => by
    simp only [substitute, bind_eq_ok, pure_eq_ok] at h ⊢
    obtain ⟨args', hargs, rfl⟩ := h
    obtain ⟨args'', hargs'⟩ :=
      Term.exists_substituteList (hm.mono (List.subset_append_right ..)) hargs
    exact ⟨_, args'', hargs', rfl⟩
  | .neg f, g, m, m', forbidden, hm, h => by
    simp only [substitute, bind_eq_ok, pure_eq_ok] at h ⊢
    obtain ⟨f', hf, rfl⟩ := h
    obtain ⟨f'', hf'⟩ := exists_substitute (f := f) hm hf
    exact ⟨_, f'', hf', rfl⟩
  | .binary op l r, g, m, m', forbidden, hm, h => by
    have hl : l.vars ++ forbidden ⊆ vars (.binary op l r) ++ forbidden := by
      simp [vars]
    have hr : r.vars ++ forbidden ⊆ vars (.binary op l r) ++ forbidden := by
      simp [vars]
    simp only [substitute, bind_eq_ok, pure_eq_ok] at h ⊢
    obtain ⟨l', hl', r', hr', rfl⟩ := h
    obtain ⟨l'', hl''⟩ := exists_substitute (hm.mono hl) hl'
    obtain ⟨r'', hr''⟩ := exists_substitute (hm.mono hr) hr'
    exact ⟨_, l'', hl'', r'', hr'', rfl⟩
  | .quantified q y f, g, m, m', forbidden, hm, h => by
    have hf : f.vars ++ y :: forbidden ⊆ vars (.quantified q y f) ++ forbidden := by
      simp [vars]
    simp only [substitute, bind_eq_ok, pure_eq_ok] at h ⊢
    obtain ⟨f', hf', rfl⟩ := h
    obtain ⟨f'', hf''⟩ := exists_substitute ((hm.mono hf).erase y) hf'
    exact ⟨_, f'', hf'', rfl⟩

/-- A term goes in everywhere if no variable of it stands in the formula. -/
theorem Formula.exists_substitute_single (f : Formula) (x : String) {u : Term}
    (hu : ∀ z ∈ u.vars, z ∉ f.vars) : ∃ g, f.substitute (.single x u) [] = .ok g := by
  have hself : f.substitute .empty [] = .ok f := f.substitute_empty _ _ Table.get?_empty
  refine exists_substitute (fun n t hn => .inr ?_) hself
  obtain ⟨-, rfl⟩ := Table.get?_single_eq_some.1 hn
  rwa [List.append_nil]

/-! ## By way of a fresh name -/

/-- The name does not stand in the formula, not even at a quantifier. -/
def Leaf.FreshFor (f : Formula) : Leaf → Prop
  | .var z => z ∉ f.vars
  | .const c => c ∉ f.constants

instance (f : Formula) : (n : Leaf) → Decidable (n.FreshFor f)
  | .var z => inferInstanceAs (Decidable (z ∉ f.vars))
  | .const c => inferInstanceAs (Decidable (c ∉ f.constants))

namespace Leaf

variable {f : Formula} {n : Leaf}

theorem FreshFor.not_mem_freeVars (h : n.FreshFor f) (hf : f.WellFormed) (hn : n.WellFormed) :
    n.name ∉ f.freeVars := by
  intro hmem
  have hvars := f.freeVars_subset_vars hmem
  cases n with
  | var z => exact h hvars
  | const c => exact isVar_ne_isConst (hf.isVar hvars) hn rfl

theorem FreshFor.not_mem_constants (h : n.FreshFor f) (hf : f.WellFormed) (hn : n.WellFormed) :
    n.name ∉ f.constants := by
  intro hmem
  cases n with
  | var z => exact isVar_ne_isConst hn (hf.isConst hmem) rfl
  | const c => exact h hmem

theorem FreshFor.not_mem_vars (h : n.FreshFor f) : ∀ z ∈ n.term.vars, z ∉ f.vars := by
  cases n with
  | var z =>
    intro y hy
    rwa [List.mem_singleton.1 hy]
  | const c => exact nofun

end Leaf

/-- A fresh name can be put for any name, and a term for the fresh name then does what the term does
for the name itself: the same formula comes out, or the same variable is in the way. So the name
itself in the place of the fresh one gives the formula back. -/
theorem Formula.substitute_by_fresh {f : Formula} (hf : f.WellFormed) {x : String}
    (hx : Substitution.admits x) {n : Leaf} (hn : n.WellFormed) (hfresh : n.FreshFor f) :
    ∃ g, f.substitute (.single x n.term) [] = .ok g ∧
      (∀ t forbidden,
        g.substitute (.single n.name t) forbidden = f.substitute (.single x t) forbidden) ∧
      ∀ a : Leaf, a.WellFormed → a.name = x →
        g.substitute (.single n.name a.term) [] = .ok f := by
  obtain ⟨g, hg⟩ := f.exists_substitute_single x hfresh.not_mem_vars
  have hname : n.term = .var n.name ∨ n.term = .const n.name := by
    cases n with
    | var z => exact .inl rfl
    | const c => exact .inr rfl
  have hdetour : ∀ t forbidden,
      g.substitute (.single n.name t) forbidden = f.substitute (.single x t) forbidden := by
    intro t forbidden
    exact substitute_detour hf hx hn.term hname (hfresh.not_mem_freeVars hf hn)
      (hfresh.not_mem_constants hf hn) hg
  refine ⟨g, hg, hdetour, ?_⟩
  rintro a ha rfl
  rw [hdetour]
  exact substitute_single_self hf ha List.not_mem_nil

/-- In `(Ax[R(x,y)]&Ey[Q(x,y)])`, by way of `z`, the second `x` becomes `g(x)` and comes back as
`x`. By way of the placeholder it cannot become `g(y)`. The first `x` is bound and stays. -/
theorem Formula.substitute_by_fresh_shadowed :
    let g : Term → Term := fun t => .app ⟨"g", 1⟩ [t]
    let f : Term → Formula := fun t => .conj (.all "x" (.holds "R" [.var "x", .var "y"]))
      (.ex "y" (.holds "Q" [t, .var "y"]))
    (f (.var "x")).WellFormed ∧ Leaf.FreshFor (f (.var "x")) (.var "z") ∧
      Leaf.FreshFor (f (.var "x")) (.const placeholder) ∧
      (f (.var "z")).substitute (.single "z" (g (.var "x"))) ["z"] = .ok (f (g (.var "x"))) ∧
      (f (.var "z")).substitute (.single "z" (.var "x")) [] = .ok (f (.var "x")) ∧
      (f (.const placeholder)).substitute (.single placeholder (g (.var "y"))) []
        = .error ⟨"y"⟩ := by
  intro g f
  have hf : (f (.var "x")).WellFormed := by decide
  have hx : Substitution.admits "x" := by decide
  have hz : Leaf.FreshFor (f (.var "x")) (.var "z") := by decide
  have hp : Leaf.FreshFor (f (.var "x")) (.const placeholder) := by decide
  have hvar : Leaf.WellFormed (.var "z") := by decide
  have hconst : Leaf.WellFormed (.const placeholder) := by decide
  obtain ⟨gz, hgz, hput, hback⟩ := substitute_by_fresh hf hx hvar hz
  obtain rfl : f (.var "z") = gz := Except.ok.inj hgz
  obtain ⟨gp, hgp, hput', -⟩ := substitute_by_fresh hf hx hconst hp
  obtain rfl : f (.const placeholder) = gp := Except.ok.inj hgp
  exact ⟨hf, hz, hp, hput _ _, hback (.var "x") (by decide) rfl, hput' _ _⟩

end Deduction

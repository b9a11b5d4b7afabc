import Deduction.Proofs.Detour
import Deduction.Proofs.Fresh
import Deduction.Proofs.Success

/-!
# Specialisation derives what it is asked for

The rule for free variables compares its goal with a substitution of all terms at once, but the line
that it answers with comes out of many substitutions of one variable each. In every stage the
formula is the source under some substitution, and the variable that is replaced next shows one
name of the source (`Substitution.Shows`), so the stage adds one entry to the substitution
(`Formula.substitute_insert`). First the entries are fresh variables and then they are the terms, so
in the end the substitution is the one that the caller asked for (`Session.leads_instantiateFree`).
-/

namespace Deduction

namespace Session

variable {σ β : Type} {s : Session σ} {undone : Bool} {Q : β → Session σ → Prop}

theorem leads_parametrize {body : Formula} {x : String} {next : Formula → Build σ β}
    (hbody : body.WellFormed) (hx : isVar x)
    (h : ∀ parametrized, parametrized.WellFormed → s.Leads undone (next parametrized) Q) :
    s.Leads undone (parametrize body x >>= next) Q := by
  refine leads_liftCapture fun parametrized hpar => h parametrized (hbody.substitute ?_ hpar)
  exact .single (Substitution.admits_of_isVar hx) isConst_placeholder

theorem leads_specialize {goal : Formula} {line : Nat} {term : Term} (hs : s.Clean)
    (hg : goal.WellFormed) (ht : term.WellFormed) :
    s.Leads undone (specialize goal line term) fun i t => t.Says i goal := by
  unfold specialize
  refine leads_note fun s' hr _ => leads_rejectPlaceholder fun _ =>
    leads_rejectPlaceholderTerm fun _ => leads_quantifiedAt fun x body hline =>
    leads_liftCapture fun expected _ => leads_require fun _ => ?_
  obtain ⟨hx, hbody⟩ : isVar x ∧ body.WellFormed := (hr.clean hs).wellFormed_formula hline
  refine leads_parametrize hbody hx fun parametrized hpar => ?_
  have hbindings : Bindings.WellFormed (Table.ofList
      [("R", Binding.formula parametrized), ("x", .var x), ("c", .term term)]) := by
    refine .ofList ?_
    simp only [List.forall_mem_cons, Binding.WellFormed]
    exact ⟨hpar, hx, ht, List.forall_mem_nil _⟩
  exact leads_transaction (leads_bind
    (leads_instantiate ⟨⟨hx, hbody⟩, hg⟩ (LogicalAxiom.wellFormed_schema _) hbindings)
    fun i t _ _ => leads_modusPonens hg)

theorem leads_generalizeAndSpecialize {f : Formula} {line : Nat} {x : String} {term : Term}
    (hs : s.Clean) (hf : f.WellFormed) (hx : isVar x) (ht : term.WellFormed) :
    s.Leads false (generalizeAndSpecialize f line x term) fun r t =>
      f.substitute (.single x term) [] = .ok r.1 ∧ t.Says r.2 r.1 := by
  unfold generalizeAndSpecialize
  refine leads_liftCapture fun result hresult => ?_
  have hm : Substitution.WellFormed (.single x term) :=
    .single (Substitution.admits_of_isVar hx) ht
  refine leads_bind (leads_generalize ⟨hx, hf⟩) fun universal t hst _ => ?_
  refine leads_bind (leads_specialize (hst.clean hs) (hf.substitute hm hresult) ht) ?_
  exact fun index u _ hu => leads_pure ⟨hresult, hu⟩

/-! ## Fresh variables -/

/-- The entries, each with a variable of its own that is not used. -/
structure FreshlyNamed (used : List String) (entries : List (String × Term))
    (renamings : List (String × String × Term)) : Prop where
  entries : renamings.map (fun r => (r.1, r.2.2)) = entries
  nodup : (renamings.map (·.2.1)).Nodup
  isVar_fresh : ∀ r ∈ renamings, isVar r.2.1
  unused : ∀ r ∈ renamings, r.2.1 ∉ used

theorem FreshlyNamed.cons {x z : String} {term : Term} {used : List String}
    {entries : List (String × Term)} {renamings : List (String × String × Term)} (hz : isVar z)
    (hused : z ∉ used) (h : FreshlyNamed (z :: used) entries renamings) :
    FreshlyNamed used ((x, term) :: entries) ((x, z, term) :: renamings) := by
  refine ⟨?_, ?_, ?_, ?_⟩
  · rw [List.map_cons, h.entries]
  · rw [List.map_cons, List.nodup_cons]
    refine ⟨fun hmem => ?_, h.nodup⟩
    obtain ⟨r, hr, hrz⟩ := List.mem_map.1 hmem
    exact h.unused r hr (hrz ▸ List.mem_cons_self ..)
  · exact List.forall_mem_cons.2 ⟨hz, h.isVar_fresh⟩
  · refine List.forall_mem_cons.2 ⟨hused, fun r hr hmem => ?_⟩
    exact h.unused r hr (List.mem_cons_of_mem _ hmem)

theorem yields_freshFor : ∀ {entries : List (String × Term)} {used : List String} {s : Session σ},
    s.Clean → s.Yields (freshFor used entries) fun renamings t =>
      (s.Reaches t ∧ t.lines = s.lines) ∧ FreshlyNamed used entries renamings
  | [], used, s, _ => ⟨⟨.refl s, rfl⟩, rfl, List.nodup_nil, by simp, by simp⟩
  | (x, term) :: rest, used, s, hs => by
    have hr : s.Reaches { s with fresh := (s.fresh.nextAvoiding used).2 } :=
      .of_same rfl rfl rfl (s.fresh.stem_nextAvoiding used) rfl
    rw [freshFor, yields_bind]
    refine yields_bind.2 ((yields_freshFor (hr.clean hs)).mono ?_)
    rintro renamings t ⟨⟨hrt, hlines⟩, hnamed⟩
    exact ⟨⟨hr.trans hrt, hlines⟩, hnamed.cons (Fresh.isVar_nextAvoiding hs.stem used)
      (s.fresh.nextAvoiding_not_mem used)⟩

/-! ## Stage by stage -/

/-- Stages that can follow one another when the source is at the substitution `m`. A stage
`(x, y, t)` puts `t` for the variable `y`, which shows the name `x` of the source. -/
structure Staged (source : Formula) (m : Substitution) (stages : List (String × String × Term)) :
    Prop where
  each : ∀ r ∈ stages, isVar r.1 ∧ isVar r.2.1 ∧ r.2.2.WellFormed ∧ m.Shows source r.1 r.2.1
  pairwise : stages.Pairwise fun r r' => r.1 ≠ r'.1 ∧ r'.2.1 ∉ r.2.2.vars

/-- The variables of the later stages do not occur in the first term, so they show their names
still. -/
theorem Staged.tail {source : Formula} {m : Substitution} {x y : String} {t : Term}
    {rest : List (String × String × Term)} (h : Staged source m ((x, y, t) :: rest)) :
    Staged source (m.insert x t) rest := by
  obtain ⟨hfirst, hpair⟩ := List.pairwise_cons.1 h.pairwise
  refine ⟨fun r hr => ?_, hpair⟩
  obtain ⟨hx, hy, ht, hshows⟩ := h.each r (List.mem_cons_of_mem _ hr)
  exact ⟨hx, hy, ht, hshows.insert (hfirst r hr).1 (hfirst r hr).2⟩

theorem leads_stages {source : Formula} (hsource : source.WellFormed) :
    ∀ {stages : List (String × String × Term)} {m : Substitution} {f : Formula} {line : Nat}
      {s : Session σ}, s.Clean → m.WellFormed → Staged source m stages →
      source.substitute m [] = .ok f → s.Says line f →
      s.Leads false (stages.foldlM (fun (f, l) (_, y, t) => generalizeAndSpecialize f l y t)
        (f, line)) fun r t =>
          source.substitute (m.insertAll (stages.map fun r => (r.1, r.2.2))) [] = .ok r.1 ∧
            t.Says r.2 r.1
  | [], m, f, line, s, _, _, _, hf, hline => leads_pure ⟨hf, hline⟩
  | (x, y, t) :: rest, m, f, line, s, hs, hm, hstages, hf, hline => by
    obtain ⟨hx, hy, ht, hshows⟩ := hstages.each _ (List.mem_cons_self ..)
    rw [List.foldlM_cons]
    refine leads_bind (leads_generalizeAndSpecialize hs (hs.wellFormed_formula hline) hy ht) ?_
    rintro ⟨f', line'⟩ u hsu ⟨hf', hline'⟩
    have hm' : Substitution.WellFormed (m.insert x t) :=
      hm.insert (Substitution.admits_of_isVar hx) ht
    have hinsert : source.substitute (m.insert x t) [] = .ok f' := by
      rw [← Formula.substitute_insert hsource hm hy hshows hf, hf']
    exact leads_stages hsource (hsu.clean hs) hm' hstages.tail hinsert hline'

section

variable {m : Substitution} {source : Formula} {used : List String}
  {renamings : List (String × String × Term)}

/-- The substitution after the variables were renamed and before the terms were put in. -/
def renamed (renamings : List (String × String × Term)) : Substitution :=
  Table.ofList (renamings.map fun r => (r.1, .var r.2.1))

theorem FreshlyNamed.mem (h : FreshlyNamed used m.entries renamings)
    {r : String × String × Term} (hr : r ∈ renamings) : (r.1, r.2.2) ∈ m.entries :=
  h.entries ▸ List.mem_map.2 ⟨r, hr, rfl⟩

theorem FreshlyNamed.nodup_keys (h : FreshlyNamed used m.entries renamings) :
    (renamings.map Prod.fst).Nodup := by
  have hnodup := m.nodup
  rw [← h.entries, List.map_map] at hnodup
  exact hnodup

theorem FreshlyNamed.entries_renamed (h : FreshlyNamed used m.entries renamings) :
    (renamed renamings).entries = renamings.map fun r => (r.1, .var r.2.1) := by
  refine Table.entries_ofList ?_
  rw [List.map_map]
  exact h.nodup_keys

theorem FreshlyNamed.get?_renamed (h : FreshlyNamed used m.entries renamings) {n : String}
    {t : Term} (hn : (renamed renamings).get? n = some t) :
    ∃ r ∈ renamings, r.1 = n ∧ .var r.2.1 = t := by
  have hmem := Table.mem_of_get? hn
  rw [h.entries_renamed] at hmem
  obtain ⟨r, hr, hrn⟩ := List.mem_map.1 hmem
  exact ⟨r, hr, congrArg Prod.fst hrn, congrArg Prod.snd hrn⟩

theorem FreshlyNamed.shows (h : FreshlyNamed used m.entries renamings)
    (hsource : source.freeVars ⊆ used) {r : String × String × Term} (hr : r ∈ renamings) :
    (renamed renamings).Shows source r.1 r.2.1 := by
  refine ⟨.inl (Table.get?_of_mem ?_), fun n t hn ht => ?_, fun hz => ?_⟩
  · rw [h.entries_renamed]
    exact List.mem_map.2 ⟨r, hr, rfl⟩
  · obtain ⟨r', hr', rfl, rfl⟩ := h.get?_renamed ht
    intro hmem
    have hz : r.2.1 = r'.2.1 := List.mem_singleton.1 hmem
    exact hn (congrArg Prod.fst (List.inj_on_of_nodup_map h.nodup hr hr' hz)).symm
  · exact absurd (hsource hz) (h.unused r hr)

/-- The terms replace all the fresh variables. -/
theorem FreshlyNamed.get?_insertAll_renamed (h : FreshlyNamed used m.entries renamings)
    (n : String) : ((renamed renamings).insertAll m.entries).get? n = m.get? n := by
  rw [Table.get?_insertAll n _ m.nodup, ← Table.get?]
  cases hm : m.get? n with
  | some t => rfl
  | none =>
    rw [Option.none_or]
    cases hn : (renamed renamings).get? n with
    | none => rfl
    | some t =>
      obtain ⟨r, hr, rfl, -⟩ := h.get?_renamed hn
      rw [Table.get?_of_mem (h.mem hr)] at hm
      cases hm

theorem FreshlyNamed.wellFormed_renamed (h : FreshlyNamed used m.entries renamings)
    (hkeys : ∀ e ∈ m.entries, isVar e.1) : (renamed renamings).WellFormed := by
  intro e he
  obtain ⟨r, hr, rfl⟩ := List.mem_map.1 (Table.mem_ofList he)
  have hx : isVar r.1 := hkeys _ (h.mem hr)
  exact ⟨Substitution.admits_of_isVar hx, h.isVar_fresh r hr⟩

theorem FreshlyNamed.staged_rename (h : FreshlyNamed used m.entries renamings)
    (hkeys : ∀ e ∈ m.entries, isVar e.1 ∧ e.1 ∈ used) :
    Staged source .empty (renamings.map fun r => (r.1, r.1, .var r.2.1)) where
  each stage hstage := by
    obtain ⟨r, hr, rfl⟩ := List.mem_map.1 hstage
    have hx : isVar r.1 := (hkeys _ (h.mem hr)).1
    refine ⟨hx, hx, h.isVar_fresh r hr, .inr ⟨rfl, rfl⟩, fun n t _ ht => ?_, fun _ => rfl⟩
    cases ht
  pairwise := by
    refine List.pairwise_map.2 ((List.pairwise_map.1 h.nodup_keys).imp_of_mem ?_)
    intro r r' hr hr' hne
    refine ⟨hne, fun hmem => ?_⟩
    -- A fresh variable is none of the names that are to be replaced.
    have hz : r'.1 = r.2.1 := List.mem_singleton.1 hmem
    exact h.unused r hr (hz ▸ (hkeys _ (h.mem hr')).2)

theorem FreshlyNamed.staged_fill (h : FreshlyNamed used m.entries renamings) (hm : m.WellFormed)
    (hfree : source.freeVars ⊆ used) (hkeys : ∀ e ∈ m.entries, isVar e.1)
    (hterms : ∀ e ∈ m.entries, e.2.vars ⊆ used) :
    Staged source (renamed renamings) renamings where
  each r hr :=
    ⟨hkeys _ (h.mem hr), h.isVar_fresh r hr, (hm _ (h.mem hr)).2, h.shows hfree hr⟩
  pairwise := by
    refine (List.pairwise_map.1 h.nodup_keys).imp_of_mem ?_
    intro r r' hr hr' hne
    exact ⟨hne, fun hz => h.unused r' hr' (hterms _ (h.mem hr) hz)⟩

theorem leads_rename {line : Nat} (hs : s.Clean) (hsource : source.WellFormed)
    (h : FreshlyNamed used m.entries renamings) (hkeys : ∀ e ∈ m.entries, isVar e.1 ∧ e.1 ∈ used)
    (hline : s.Says line source) :
    s.Leads false (renamings.foldlM
      (fun (f, l) (x, fresh, _) => generalizeAndSpecialize f l x (.var fresh)) (source, line))
      fun r t => source.substitute (renamed renamings) [] = .ok r.1 ∧ t.Says r.2 r.1 := by
  have hstart : source.substitute .empty [] = .ok source :=
    Formula.substitute_eq_self (fun x _ => Table.get?_empty x) fun c _ => Table.get?_empty c
  have hlead := leads_stages hsource hs .empty (h.staged_rename hkeys) hstart hline
  rw [List.foldlM_map, List.map_map] at hlead
  exact hlead

theorem leads_fill {f : Formula} {line : Nat} (hs : s.Clean) (hsource : source.WellFormed)
    (hm : m.WellFormed) (h : FreshlyNamed used m.entries renamings)
    (hfree : source.freeVars ⊆ used) (hkeys : ∀ e ∈ m.entries, isVar e.1)
    (hterms : ∀ e ∈ m.entries, e.2.vars ⊆ used)
    (hf : source.substitute (renamed renamings) [] = .ok f) (hline : s.Says line f) :
    s.Leads false (renamings.foldlM
      (fun (f, l) (_, fresh, term) => generalizeAndSpecialize f l fresh term) (f, line))
      fun r t => source.substitute m [] = .ok r.1 ∧ t.Says r.2 r.1 := by
  refine (leads_stages hsource hs (h.wellFormed_renamed hkeys)
    (h.staged_fill hm hfree hkeys hterms) hf hline).mono fun r t _ hr => ?_
  have hall : source.substitute ((renamed renamings).insertAll m.entries) []
      = source.substitute m [] := Formula.substitute_congr
    (fun x _ => h.get?_insertAll_renamed x) fun c _ => h.get?_insertAll_renamed c
  rw [h.entries, hall] at hr
  exact hr

end

theorem mem_used_of_mem_vars {source goal : Formula} {m : Substitution} {x : String}
    (hx : x ∈ source.vars) :
    x ∈ source.vars ++ goal.vars ++ m.entries.flatMap fun e => e.1 :: e.2.vars :=
  List.mem_append_left _ (List.mem_append_left _ hx)

theorem mem_used_of_mem_entry {source goal : Formula} {m : Substitution} {e : String × Term}
    (he : e ∈ m.entries) {x : String} (hx : x ∈ e.1 :: e.2.vars) :
    x ∈ source.vars ++ goal.vars ++ m.entries.flatMap fun e => e.1 :: e.2.vars :=
  List.mem_append_right _ (List.mem_flatMap.2 ⟨e, he, hx⟩)

theorem leads_instantiateFree {goal : Formula} {line : Nat} {m : Substitution} (hs : s.Clean)
    (hm : m.WellFormed) :
    s.Leads undone (instantiateFree goal line m) fun i t => t.Says i goal := by
  unfold instantiateFree
  refine leads_note fun s' hr _ => leads_rejectPlaceholder fun _ => leads_forM
    (fun e next => leads_rejectPlaceholderTerm) fun _ => ?_
  replace hs := hr.clean hs
  split
  · exact leads_throw
  rename_i hfind
  have hkeys : ∀ e ∈ m.entries, isVar e.1 := by
    intro e he
    have h := List.find?_eq_none.1 hfind e.1 (List.mem_map.2 ⟨e, he, rfl⟩)
    simpa using h
  refine leads_formulaAt fun source hline => leads_liftCapture fun expected hexpected =>
    leads_require ?_
  rintro rfl
  have hsource : source.WellFormed := hs.wellFormed_formula hline
  dsimp only
  split_ifs with hempty
  · -- Nothing is asked for, so the line itself is the answer.
    have hnone : ∀ n, m.get? n = none := by
      intro n
      rw [Table.get?, List.isEmpty_iff.1 hempty]
      rfl
    rw [Formula.substitute_eq_self (fun x _ => hnone x) fun c _ => hnone c,
      Except.ok.injEq] at hexpected
    rw [← hexpected]
    exact leads_pure hline
  refine leads_bind_same ((yields_freshFor hs).mono fun renamings t ht =>
    ⟨ht.1, leads_transaction ?_⟩).after
  obtain ⟨⟨hst, -⟩, hnamed⟩ := ht
  refine leads_bind (leads_rename (hst.clean hs) hsource hnamed (fun e he =>
    ⟨hkeys e he, mem_used_of_mem_entry he (List.mem_cons_self ..)⟩) (hst.keeps hline)) ?_
  rintro ⟨f, l⟩ u htu ⟨hf, hl⟩
  refine leads_bind (leads_fill (htu.clean (hst.clean hs)) hsource hm hnamed
    (fun x hx => mem_used_of_mem_vars (source.freeVars_subset_vars hx)) hkeys
    (fun e he x hx => mem_used_of_mem_entry he (List.mem_cons_of_mem _ hx)) hf hl) ?_
  rintro ⟨result, l'⟩ v _ ⟨hresult, hl'⟩
  rw [hexpected, Except.ok.injEq] at hresult
  rw [hresult]
  exact leads_pure hl'

end Session

end Deduction

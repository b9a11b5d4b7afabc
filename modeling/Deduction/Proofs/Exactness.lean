import Deduction.Proofs.AxiomInstance
import Deduction.Proofs.Run

/-!
# Specialisation succeeds just when it should

The steps of specialisation substitute in many places: a step looks at the goal first and then
builds instances of an axiom, which substitute again, by way of the placeholder and of fresh
variables. All of this goes well if the substitution that the caller asked for does.

For one variable, the axiom's relation is bound to the body with the placeholder for the variable,
so the axiom has the instance that is wanted (`LogicalAxiom.instantiate_universalInstantiation`).

For the free variables, each stage of the rule is at the source under a substitution that is no
worse than the caller's (`Substitution.NoWorse`): it puts in the caller's own terms and variables
that the source does not have. So no stage fails (`Session.yields_stages`).
-/

namespace Deduction

namespace Session

variable {σ : Type} {s : Session σ} {line : Nat} {goal : Formula}

/-! ## One variable -/

/-- The two lines that specialise the line `Ax[P]`: an instance of the axiom and modus ponens. -/
def specialization (s : Session σ) (goal : Formula) (line : Nat) (term : Term) (x : String)
    (body parametrized : Formula) : List Line :=
  [⟨.imp (.all x body) goal, .assumption LogicalAxiom.universalInstantiation.schema
      (.ofList [("R", .formula parametrized), ("x", .var x), ("c", .term term)])⟩,
    ⟨goal, .modusPonens line s.lines.length⟩]

theorem yields_specialize {term : Term} {Q : Nat → Session σ → Prop} (hs : s.Clean)
    (hUI : LogicalAxiom.universalInstantiation.schema ∈ s.assumptions) :
    s.Yields (specialize goal line term) Q ↔
      placeholder ∉ goal.constants ∧ placeholder ∉ term.constants ∧
        ∃ x body, s.Says line (.all x body) ∧ body.substitute (.single x term) [] = .ok goal ∧
          ∃ parametrized, body.substitute (.single x (.const placeholder)) [] = .ok parametrized ∧
            Q (s.lines.length + 1) ((s.specialization goal line term x body parametrized).foldl
              added (s.noted (.specializing goal line term))) := by
  unfold specialize
  rw [yields_note, yields_rejectPlaceholder, yields_rejectPlaceholderTerm, yields_quantifiedAt]
  refine and_congr_right fun hgoal => and_congr_right fun _ => exists_congr fun x =>
    exists_congr fun body => and_congr_right fun hline => ?_
  change s.Says line (.all x body) at hline
  obtain ⟨hx, hbody⟩ : isVar x ∧ body.WellFormed := hs.wellFormed_formula hline
  have hclean : placeholder ∉ (Formula.all x body).constants := hs.noPlaceholder_formula hline
  refine yields_liftCapture.trans ⟨?_, ?_⟩
  · rintro ⟨expected, hexpected, h⟩
    obtain ⟨rfl, h⟩ := yields_require.1 h
    obtain ⟨parametrized, hpar, h⟩ := yields_liftCapture.1 h
    obtain ⟨-, -, -, h⟩ := yields_instantiate.1 (yields_bind.1 (yields_transaction.1 h))
    obtain ⟨-, -, hQ⟩ := yields_modusPonens.1 h
    rw [length_added] at hQ
    exact ⟨hexpected, parametrized, hpar, hQ⟩
  · rintro ⟨hexpected, parametrized, hpar, hQ⟩
    have hinstance : placeholder ∉ (Formula.imp (.all x body) goal).constants := by
      simp only [Formula.imp, Formula.all, Formula.constants, List.mem_append, not_or]
      exact ⟨hclean, hgoal⟩
    refine ⟨goal, hexpected, yields_require.2 ⟨rfl, yields_liftCapture.2 ⟨parametrized, hpar,
      yields_transaction.2 (yields_bind.2 (yields_instantiate.2 ⟨hinstance, hUI, ?_, ?_⟩))⟩⟩⟩
    · exact LogicalAxiom.instantiate_universalInstantiation hbody hx hclean hpar hexpected
    · refine yields_modusPonens.2 ⟨hgoal, ⟨.all x body, ?_, says_added_last⟩, ?_⟩
      · exact hline.mono (List.prefix_append ..)
      · rw [length_added]
        exact hQ

/-- A line is specialised to a term just when neither the goal nor the term mentions the
placeholder, and the line says `P` for all values of a variable, and `P` with the term for the
variable is the goal. Then two lines are added, the instance `(Ax[P]->goal)` of the axiom and modus
ponens, and the answer is the second. This is so after any steps and with any oracle. -/
theorem specialize_exact {oracle : Oracle σ} {s₀ : Session σ} (hopen : Opened oracle s₀)
    {steps : List Step} (hsteps : ∀ step ∈ steps, step.WellFormed) (goal : Formula) (line : Nat)
    (term : Term) :
    let s := s₀.performAll steps
    let s' := (s.perform (specialize goal line term)).2
    ((∃ i, (s.perform (specialize goal line term)).1 = .ok i) ↔
      placeholder ∉ goal.constants ∧ placeholder ∉ term.constants ∧
        ∃ x P, s.Says line (.all x P) ∧ P.substitute (.single x term) [] = .ok goal) ∧
    ∀ i, (s.perform (specialize goal line term)).1 = .ok i → i = s.lines.length + 1 ∧
      ∃ x P parametrized, s.Says line (.all x P) ∧
        P.substitute (.single x (.const placeholder)) [] = .ok parametrized ∧
        s'.lines = s.lines ++
          [⟨.imp (.all x P) goal, .assumption LogicalAxiom.universalInstantiation.schema
            (.ofList [("R", .formula parametrized), ("x", .var x), ("c", .term term)])⟩,
          ⟨goal, .modusPonens line s.lines.length⟩] := by
  intro s s'
  obtain ⟨hs, haxioms⟩ : s.Clean ∧ ∀ a : LogicalAxiom, a.schema ∈ s.assumptions :=
    hopen.performAll hsteps
  have hUI := haxioms .universalInstantiation
  constructor
  · rw [exists_perform_eq_ok, yields_specialize hs hUI]
    simp only [and_true, Formula.exists_parametrized]
  · intro i hi
    obtain ⟨-, -, x, P, hline, -, parametrized, hpar, hindex, hs'⟩ :=
      (yields_specialize hs hUI).1 (perform_eq_ok.1 hi)
    refine ⟨hindex.symm, x, P, parametrized, hline, hpar, ?_⟩
    rw [show s' = _ from hs'.symm, lines_foldl_added]
    rfl

/-- `P` says something of `x` under a quantifier over `y`, and has another quantifier over `x`. So
the line can be specialised to `g(x)`, which leaves the latter alone, but never to `y`. -/
theorem specialize_exact_under_quantifiers :
    let P := fun t : Term => Formula.conj (.all "y" (.holds "Q" [t, .var "y"]))
      (.ex "x" (.holds "R" [.var "x"]))
    let g := Term.app ⟨"g", 1⟩ [.var "x"]
    let steps : List Step := [.assume (.all "x" (P (.var "x")))]
    let s := (start [.fixed (.all "x" (P (.var "x")))]).performAll steps
    (∀ step ∈ steps, step.WellFormed) ∧ (s.perform (specialize (P g) 0 g)).1 = .ok 2 ∧
      ∀ goal, ¬∃ i, (s.perform (specialize goal 0 (.var "y"))).1 = .ok i := by
  intro P g steps s
  have hsteps : ∀ step ∈ steps, step.WellFormed := by decide
  have hstates : s.Says 0 (.all "x" (P (.var "x"))) := by decide +kernel
  have hlength : s.lines.length = 1 := by decide +kernel
  have hexact := specialize_exact (Opened.start [.fixed (.all "x" (P (.var "x")))]) hsteps
  refine ⟨hsteps, ?_, fun goal h => ?_⟩
  · obtain ⟨hiff, hadded⟩ := hexact (P g) 0 g
    obtain ⟨i, hi⟩ := hiff.2 ⟨by decide, by decide, "x", _, hstates, by decide⟩
    rw [hi, (hadded i hi).1, hlength]
  · obtain ⟨-, -, x, body, hline, hbody⟩ := (hexact goal 0 (.var "y")).1.1 h
    cases Option.some.inj (hstates.symm.trans hline)
    cases hbody

/-! ## Several variables -/

theorem yields_generalizeAndSpecialize {f result : Formula} {x : String} {term : Term}
    (hs : s.Clean) (hUI : LogicalAxiom.universalInstantiation.schema ∈ s.assumptions)
    (hx : isVar x) (hline : s.Says line f) (hterm : placeholder ∉ term.constants)
    (hresult : f.substitute (.single x term) [] = .ok result) :
    s.Yields (generalizeAndSpecialize f line x term) fun r t =>
      r.2 = s.lines.length + 2 ∧ t.lines.length = s.lines.length + 3 := by
  have hf : f.WellFormed := hs.wellFormed_formula hline
  have hclean : placeholder ∉ f.constants := hs.noPlaceholder_formula hline
  have hgoal : placeholder ∉ result.constants := by
    rw [Formula.mem_constants_substitute hf hresult]
    rintro (⟨hmem, -⟩ | ⟨n, -, t, ht, hmem⟩)
    · exact hclean hmem
    · obtain ⟨-, rfl⟩ := Table.get?_single_eq_some.1 ht
      exact hterm hmem
  have hgeneralize : s.Yields (generalize (.all x f) line) fun i t =>
      i = s.lines.length ∧ t = s.added ⟨.all x f, .generalization line⟩ :=
    yields_generalize.2 ⟨hclean, ⟨x, f, rfl, hline⟩, rfl, rfl⟩
  have hlead : s.Leads false (generalize (.all x f) line) fun i t => t.Says i (.all x f) :=
    leads_generalize ⟨hx, hf⟩
  unfold generalizeAndSpecialize
  refine yields_liftCapture.2 ⟨result, hresult,
    yields_bind.2 ((hgeneralize.and_leads hlead).mono ?_)⟩
  rintro i t ⟨⟨rfl, rfl⟩, hr, hstates⟩
  obtain ⟨parametrized, hpar⟩ := f.exists_parametrized x
  refine yields_bind.2 ((yields_specialize (hr.clean hs) hUI).2
    ⟨hgoal, hterm, x, f, hstates, hresult, parametrized, hpar, ?_, ?_⟩)
  · rw [length_added]
  · simp [specialization, length_added, noted]

/-- All stages go well if the substitution `m₀` does and each stage puts in the term that `m₀` puts
in, or one that has no variable of the source. -/
theorem yields_stages {source : Formula} {m₀ : Substitution} (hsource : source.WellFormed)
    (hgoal : source.substitute m₀ [] = .ok goal) :
    ∀ {stages : List (String × String × Term)} {m : Substitution} {f : Formula} {line : Nat}
      {s : Session σ}, s.Clean → LogicalAxiom.universalInstantiation.schema ∈ s.assumptions →
      m.WellFormed → Staged source m stages → m.NoWorse m₀ source.vars →
      (∀ r ∈ stages, placeholder ∉ r.2.2.constants) →
      (∀ r ∈ stages, m₀.get? r.1 = some r.2.2 ∨ ∀ x ∈ r.2.2.vars, x ∉ source.vars) →
      source.substitute m [] = .ok f → s.Says line f →
      s.Yields (stages.foldlM (fun (f, l) (_, y, t) => generalizeAndSpecialize f l y t) (f, line))
        fun r t => t.lines.length = s.lines.length + 3 * stages.length ∧
          (stages ≠ [] ∨ line + 1 = s.lines.length → r.2 + 1 = t.lines.length)
  | [], m, f, line, s, _, _, _, _, _, _, _, _, _ => ⟨rfl, fun h => h.resolve_left (absurd rfl)⟩
  | (x, y, t) :: rest, m, f, line, s, hs, hUI, hm, hstages, hnoWorse, hclean, hharmless, hf,
      hline => by
    obtain ⟨hx, hy, ht, hshows⟩ := hstages.each _ (List.mem_cons_self ..)
    obtain ⟨htclean, hclean⟩ := List.forall_mem_cons.1 hclean
    obtain ⟨htharmless, hharmless⟩ := List.forall_mem_cons.1 hharmless
    have hm' : Substitution.WellFormed (m.insert x t) :=
      hm.insert (Substitution.admits_of_isVar hx) ht
    have hnoWorse' : Substitution.NoWorse (m.insert x t) m₀ source.vars :=
      hnoWorse.insert htharmless
    obtain ⟨f', hf'⟩ : ∃ f', source.substitute (m.insert x t) [] = .ok f' :=
      Formula.exists_substitute (by rwa [List.append_nil]) hgoal
    have hresult : f.substitute (.single y t) [] = .ok f' := by
      rw [Formula.substitute_insert hsource hm hy hshows hf, hf']
    have hfirst := (yields_generalizeAndSpecialize hs hUI hy hline htclean hresult).and_leads
      (leads_generalizeAndSpecialize hs (hs.wellFormed_formula hline) hy ht)
    rw [List.foldlM_cons]
    refine yields_bind.2 (hfirst.mono ?_)
    rintro ⟨g, line'⟩ u ⟨⟨hline', hlength⟩, hr, hg, hstates⟩
    cases Except.ok.inj (hg.symm.trans hresult)
    have hUI' : LogicalAxiom.universalInstantiation.schema ∈ u.assumptions := by
      rw [hr.assumptions]
      exact hUI
    refine (yields_stages hsource hgoal (hr.clean hs) hUI' hm' hstages.tail hnoWorse' hclean
      hharmless hf' hstates).mono fun r v hv => ⟨?_, fun _ => hv.2 (.inr ?_)⟩
    · rw [hv.1, hlength, List.length_cons]
      omega
    · rw [hlength]
      exact congrArg (· + 1) hline'

section

variable {source : Formula} {m : Substitution} {used : List String}
  {renamings : List (String × String × Term)} (hs : s.Clean)
  (hUI : LogicalAxiom.universalInstantiation.schema ∈ s.assumptions) (hsource : source.WellFormed)
  (hgoal : source.substitute m [] = .ok goal) (hnamed : FreshlyNamed used m.entries renamings)
  (hvars : source.vars ⊆ used)

include hs hUI hsource hgoal hnamed hvars

theorem yields_rename (hkeys : ∀ e ∈ m.entries, isVar e.1 ∧ e.1 ∈ used)
    (hline : s.Says line source) :
    s.Yields (renamings.foldlM
      (fun (f, l) (x, fresh, _) => generalizeAndSpecialize f l x (.var fresh)) (source, line))
      fun r t => t.lines.length = s.lines.length + 3 * renamings.length ∧ s.Reaches t ∧
        source.substitute (renamed renamings) [] = .ok r.1 ∧ t.Says r.2 r.1 := by
  have hstart : source.substitute .empty [] = .ok source :=
    source.substitute_empty _ _ Table.get?_empty
  have hclean : ∀ r ∈ renamings.map fun r => (r.1, r.1, Term.var r.2.1),
      placeholder ∉ r.2.2.constants := by
    simp only [List.forall_mem_map]
    exact fun r _ => List.not_mem_nil
  have hfresh : ∀ r ∈ renamings.map fun r => (r.1, r.1, Term.var r.2.1),
      m.get? r.1 = some r.2.2 ∨ ∀ x ∈ r.2.2.vars, x ∉ source.vars := by
    simp only [List.forall_mem_map, Term.vars, List.mem_singleton, forall_eq]
    exact fun r hr => .inr fun hmem => hnamed.unused r hr (hvars hmem)
  have hyield := yields_stages hsource hgoal hs hUI .empty (hnamed.staged_rename hkeys)
    (fun n t hn => by cases hn) hclean hfresh hstart hline
  rw [List.foldlM_map, List.length_map] at hyield
  exact (hyield.and_leads (leads_rename hs hsource hnamed hkeys hline)).mono
    fun _ _ h => ⟨h.1.1, h.2⟩

theorem yields_fill {f : Formula} (hm : m.WellFormed) (hkeys : ∀ e ∈ m.entries, isVar e.1)
    (hterms : ∀ e ∈ m.entries, e.2.vars ⊆ used)
    (hclean : ∀ e ∈ m.entries, placeholder ∉ e.2.constants)
    (hf : source.substitute (renamed renamings) [] = .ok f) (hline : s.Says line f) :
    s.Yields (renamings.foldlM
      (fun (f, l) (_, fresh, term) => generalizeAndSpecialize f l fresh term) (f, line))
      fun r t => t.lines.length = s.lines.length + 3 * renamings.length ∧
        (renamings ≠ [] → r.2 + 1 = t.lines.length) := by
  have hfree : source.freeVars ⊆ used := fun x hx => hvars (source.freeVars_subset_vars hx)
  have hnoWorse : (renamed renamings).NoWorse m source.vars := by
    intro n t hn
    obtain ⟨r, hr, -, rfl⟩ := hnamed.get?_renamed hn
    refine .inr fun x hx hmem => ?_
    rw [List.mem_singleton.1 hx] at hmem
    exact hnamed.unused r hr (hvars hmem)
  refine (yields_stages hsource hgoal hs hUI (hnamed.wellFormed_renamed hkeys)
    (hnamed.staged_fill hm hfree hkeys hterms) hnoWorse
    (fun r hr => hclean (r.1, r.2.2) (hnamed.mem hr))
    (fun r hr => .inl (Table.get?_of_mem (hnamed.mem hr))) hf hline).mono ?_
  exact fun r t h => ⟨h.1, fun hne => h.2 (.inl hne)⟩

/-- Each entry takes six lines, three for its fresh variable and three for its term. -/
theorem yields_renameAndFill (hm : m.WellFormed)
    (hkeys : ∀ e ∈ m.entries, isVar e.1 ∧ e.1 ∈ used) (hterms : ∀ e ∈ m.entries, e.2.vars ⊆ used)
    (hclean : ∀ e ∈ m.entries, placeholder ∉ e.2.constants) (hline : s.Says line source) :
    s.Yields (do
      let (formula, line) ← renamings.foldlM
        (fun (f, l) (x, fresh, _) => generalizeAndSpecialize f l x (.var fresh)) (source, line)
      let (_, line) ← renamings.foldlM
        (fun (f, l) (_, fresh, term) => generalizeAndSpecialize f l fresh term) (formula, line)
      return line)
      fun i t => t.lines.length = s.lines.length + 6 * renamings.length ∧
        (renamings ≠ [] → i + 1 = t.lines.length) := by
  refine yields_bind.2
    ((yields_rename hs hUI hsource hgoal hnamed hvars hkeys hline).mono ?_)
  rintro ⟨f, l⟩ t ⟨hlength, hr, hf, hl⟩
  have hUI' : LogicalAxiom.universalInstantiation.schema ∈ t.assumptions := by
    rwa [hr.assumptions]
  refine yields_bind.2 ((yields_fill (hr.clean hs) hUI' hsource hgoal hnamed hvars hm
    (fun e he => (hkeys e he).1) hterms hclean hf hl).mono ?_)
  rintro ⟨g, l'⟩ u ⟨hlength', hlast⟩
  refine ⟨?_, hlast⟩
  rw [hlength', hlength]
  omega

end

theorem yields_instantiateFree {source : Formula} {m : Substitution} (hs : s.Clean)
    (hUI : LogicalAxiom.universalInstantiation.schema ∈ s.assumptions) (hm : m.WellFormed)
    (hclean : placeholder ∉ goal.constants)
    (hterms : ∀ e ∈ m.entries, placeholder ∉ e.2.constants) (hkeys : ∀ e ∈ m.entries, isVar e.1)
    (hline : s.Says line source) (hgoal : source.substitute m [] = .ok goal) :
    s.Yields (instantiateFree goal line m) fun i t =>
      t.lines.length = s.lines.length + 6 * m.size ∧
        i + 1 = if m.size = 0 then line + 1 else t.lines.length := by
  have hsource : source.WellFormed := hs.wellFormed_formula hline
  have hfind : m.keys.find? (!isVar ·) = none := by
    simpa [Table.keys] using hkeys
  unfold instantiateFree
  refine yields_note.2 (yields_rejectPlaceholder.2 ⟨hclean, (yields_forM
    fun _ _ => yields_rejectPlaceholderTerm).2 ⟨hterms, ?_⟩⟩)
  simp only [hfind]
  refine yields_formulaAt.2 ⟨source, hline, yields_liftCapture.2 ⟨goal, hgoal,
    yields_require.2 ⟨rfl, ?_⟩⟩⟩
  split_ifs with hempty hsize hsize
  · exact ⟨by rw [hsize]; rfl, rfl⟩
  · exact absurd (List.length_eq_zero_iff.2 (List.isEmpty_iff.1 hempty)) hsize
  · exact absurd (List.isEmpty_iff.2 (List.length_eq_zero_iff.1 hsize)) hempty
  have hr : s.Reaches (s.noted (.instantiatingFree goal line)) := reaches_noted s _
  refine yields_bind.2 ((yields_freshFor (hr.clean hs)).mono ?_)
  rintro renamings t ⟨⟨hrt, hlines⟩, hnamed⟩
  have hlength : renamings.length = m.size := by
    rw [Table.size, ← hnamed.entries, List.length_map]
  have hUI' : LogicalAxiom.universalInstantiation.schema ∈ t.assumptions := by
    rwa [hrt.assumptions]
  refine yields_transaction.2 ((yields_renameAndFill (hrt.clean (hr.clean hs)) hUI' hsource hgoal
    hnamed (fun x => mem_used_of_mem_vars) hm
    (fun e he => ⟨hkeys e he, mem_used_of_mem_entry he (List.mem_cons_self ..)⟩)
    (fun e he x hx => mem_used_of_mem_entry he (List.mem_cons_of_mem _ hx)) hterms
    (hrt.keeps hline)).mono ?_)
  rintro i u ⟨hadded, hlast⟩
  rw [hlength, hlines] at hadded
  refine ⟨hadded, hlast fun h => hsize ?_⟩
  rw [← hlength, h, List.length_nil]

theorem of_yields_instantiateFree {m : Substitution} {Q : Nat → Session σ → Prop}
    (h : s.Yields (instantiateFree goal line m) Q) :
    placeholder ∉ goal.constants ∧ (∀ e ∈ m.entries, placeholder ∉ e.2.constants) ∧
      (∀ e ∈ m.entries, isVar e.1) ∧
        ∃ source, s.Says line source ∧ source.substitute m [] = .ok goal := by
  unfold instantiateFree at h
  obtain ⟨hclean, h⟩ := yields_rejectPlaceholder.1 (yields_note.1 h)
  obtain ⟨hterms, h⟩ := (yields_forM fun _ _ => yields_rejectPlaceholderTerm).1 h
  cases hfind : m.keys.find? (!isVar ·) with
  | some name =>
    rw [hfind] at h
    exact h.elim
  | none =>
    rw [hfind] at h
    obtain ⟨source, hline, h⟩ := yields_formulaAt.1 h
    obtain ⟨expected, hexpected, h⟩ := yields_liftCapture.1 h
    obtain ⟨rfl, -⟩ := yields_require.1 h
    refine ⟨hclean, hterms, ?_, source, hline, hexpected⟩
    simpa [Table.keys] using hfind

/-- The free variables of a line are given terms just when neither the goal nor any of the terms
mentions the placeholder, only variables are given terms, there is such a line, and its formula with
all terms put in at once is the goal. Then the line that is answered with states the goal, and each
variable has taken six lines, of which that is the last; if there are no variables, it is the line
itself. This is so after any steps and with any oracle. -/
theorem instantiateFree_exact {oracle : Oracle σ} {s₀ : Session σ} (hopen : Opened oracle s₀)
    {steps : List Step} (hsteps : ∀ step ∈ steps, step.WellFormed) (goal : Formula) (line : Nat)
    {m : Substitution} (hm : ∀ e ∈ m.entries, e.2.WellFormed) :
    let s := s₀.performAll steps
    let s' := (s.perform (instantiateFree goal line m)).2
    ((∃ i, (s.perform (instantiateFree goal line m)).1 = .ok i) ↔
      placeholder ∉ goal.constants ∧ (∀ e ∈ m.entries, placeholder ∉ e.2.constants) ∧
        (∀ e ∈ m.entries, isVar e.1) ∧
          ∃ source, s.Says line source ∧ source.substitute m [] = .ok goal) ∧
    ∀ i, (s.perform (instantiateFree goal line m)).1 = .ok i →
      s.lines <+: s'.lines ∧ s'.lines.length = s.lines.length + 6 * m.size ∧ s'.Says i goal ∧
        (m.size = 0 → i = line ∧ s'.lines = s.lines) ∧ (0 < m.size → i + 1 = s'.lines.length) := by
  intro s s'
  obtain ⟨hs, haxioms⟩ : s.Clean ∧ ∀ a : LogicalAxiom, a.schema ∈ s.assumptions :=
    hopen.performAll hsteps
  have hwf : (∀ e ∈ m.entries, isVar e.1) → m.WellFormed :=
    fun hkeys e he => ⟨Substitution.admits_of_isVar (hkeys e he), hm e he⟩
  constructor
  · rw [exists_perform_eq_ok]
    refine ⟨of_yields_instantiateFree, ?_⟩
    rintro ⟨hclean, hterms, hkeys, source, hline, hgoal⟩
    exact (yields_instantiateFree hs (haxioms _) (hwf hkeys) hclean hterms hkeys hline hgoal).mono
      fun _ _ _ => trivial
  · intro i hi
    obtain ⟨hclean, hterms, hkeys, source, hline, hgoal⟩ :=
      of_yields_instantiateFree (perform_eq_ok.1 hi)
    obtain ⟨hlength, hindex⟩ := After.of_ok (yields_instantiateFree hs (haxioms _) (hwf hkeys)
      hclean hterms hkeys hline hgoal) hi
    have hlead : s.Leads true (instantiateFree goal line m) fun i t => t.Says i goal :=
      leads_instantiateFree hs (hwf hkeys)
    have hlines : s.lines <+: s'.lines := hlead.reaches.lines
    refine ⟨hlines, hlength, hlead.result hi, fun h => ?_, fun h => ?_⟩
    · rw [if_pos h] at hindex
      rw [h] at hlength
      exact ⟨Nat.succ.inj hindex, (hlines.eq_of_length hlength.symm).symm⟩
    · rwa [if_neg (Nat.ne_of_gt h)] at hindex

/-- Two variables change places in a formula that has the first fresh variable already. That takes
twelve lines. One of them stands under a quantifier too, and cannot be given its variable. -/
theorem instantiateFree_exact_exchange :
    let P := fun x y : Term => Formula.conj (.holds "Q" [x, y, .var "z1"])
      (.all "w" (.holds "R" [x, .var "w"]))
    let exchange : Substitution := .ofList [("x", .var "y"), ("y", .var "x")]
    let steps : List Step := [.assume (P (.var "x") (.var "y"))]
    let s₀ := start [.fixed (P (.var "x") (.var "y"))]
    let s := s₀.performAll steps
    let s' := (s.perform (instantiateFree (P (.var "y") (.var "x")) 0 exchange)).2
    (∀ step ∈ steps, step.WellFormed) ∧ (∀ e ∈ exchange.entries, e.2.WellFormed) ∧
      (s.perform (instantiateFree (P (.var "y") (.var "x")) 0 exchange)).1 = .ok 12 ∧
      s'.lines.length = 13 ∧ s'.Says 12 (P (.var "y") (.var "x")) ∧
      ∀ goal, ¬∃ i, (s.perform (instantiateFree goal 0 (.single "x" (.var "w")))).1 = .ok i := by
  intro P exchange steps s₀ s s'
  have hsteps : ∀ step ∈ steps, step.WellFormed := by decide
  have hterms : ∀ e ∈ exchange.entries, e.2.WellFormed := by decide
  have hstates : s.Says 0 (P (.var "x") (.var "y")) := by decide +kernel
  have hlength : s.lines.length = 1 := by decide +kernel
  have hw : ∀ e ∈ Table.entries (.single "x" (Term.var "w")), e.2.WellFormed := by decide
  have hopen : Opened .truthTable s₀ := .start _
  have hexchange := instantiateFree_exact hopen hsteps (P (.var "y") (.var "x")) 0 hterms
  have hcapture := fun goal => (instantiateFree_exact hopen hsteps goal 0 hw).1
  -- What follows does not depend on what the run computes to.
  clear_value s₀ steps
  obtain ⟨i, hi⟩ := hexchange.1.2 ⟨by decide, by decide, by decide, _, hstates, by decide⟩
  obtain ⟨-, hlines, hgoal, -, hlast⟩ := hexchange.2 i hi
  have hlines' : s'.lines.length = 13 := by
    rw [hlines, hlength]
    rfl
  obtain rfl : i = 12 := Nat.succ.inj ((hlast (by decide)).trans hlines')
  refine ⟨hsteps, hterms, hi, hlines', hgoal, fun goal h => ?_⟩
  obtain ⟨-, -, -, source, hline, hsource⟩ := (hcapture goal).1 h
  cases Option.some.inj (hstates.symm.trans hline)
  cases hsource

end Session

end Deduction

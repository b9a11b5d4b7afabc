import Deduction.Proofs.Specialization

/-!
# Consequences of several lines derive what they are asked for

One modus ponens takes one premise off a chain of implications, so a line that says that the
premises imply the goal leads to the goal after as many of them (`Session.leads_discharge`).
-/

namespace Deduction

theorem Formula.wellFormed_implications {goal : Formula} (hg : goal.WellFormed) :
    ∀ {premises : List Formula}, (∀ p ∈ premises, p.WellFormed) →
      (implications premises goal).WellFormed
  | [], _ => hg
  | p :: rest, h => by
    obtain ⟨hp, hrest⟩ := List.forall_mem_cons.1 h
    exact ⟨hp, wellFormed_implications hg hrest⟩

namespace Session

variable {σ : Type} {s : Session σ} {undone : Bool}

theorem leads_discharge {goal : Formula} (hg : goal.WellFormed) :
    ∀ {premises : List (Nat × Formula)} {current : Nat} {s : Session σ},
      (∀ f ∈ premises.map Prod.snd, f.WellFormed) →
      s.Says current (.implications (premises.map Prod.snd) goal) →
      s.Leads false (discharge goal current premises) fun i t => t.Says i goal
  | [], current, s, _, h => leads_pure h
  | (line, f) :: rest, current, s, hf, _ => by
    obtain ⟨-, hrest⟩ := List.forall_mem_cons.1 hf
    exact leads_bind (leads_modusPonens (Formula.wellFormed_implications hg hrest))
      fun i t _ hi => leads_discharge hg hrest hi

theorem leads_conclude {goal : Formula} {lines : List Nat} (hs : s.Clean) (hg : goal.WellFormed) :
    s.Leads undone (conclude goal lines) fun i t => t.Says i goal := by
  unfold conclude
  refine leads_note fun t hr _ => leads_rejectPlaceholder fun _ =>
    leads_mapM (fun line next => leads_formulaAt) fun formulas hformulas => ?_
  -- The lines are looked up from the last to the first.
  have hsays : List.Forall₂ (fun line f => t.Says line f) lines formulas.reverse := by
    rw [← List.forall₂_reverse_iff, List.reverse_reverse]
    exact hformulas
  have hpremises : ∀ f ∈ formulas.reverse, f.WellFormed :=
    forall_mem_of_forall₂ (fun _ _ h => (hr.clean hs).wellFormed_formula h) hsays
  have hzip : (lines.zip formulas.reverse).map Prod.snd = formulas.reverse :=
    List.map_snd_zip (Nat.le_of_eq hsays.length_eq.symm)
  refine leads_transaction (leads_bind
    (leads_tautology (Formula.wellFormed_implications hg hpremises)) fun i u _ hi => ?_)
  exact leads_discharge hg (by rwa [hzip]) (by rwa [hzip])

theorem leads_eliminate {goal : Formula} {existential conditional : Nat} (hs : s.Clean)
    (hg : goal.WellFormed) :
    s.Leads undone (eliminate goal existential conditional) fun i t => t.Says i goal := by
  unfold eliminate
  refine leads_note fun t hr _ => leads_rejectPlaceholder fun _ =>
    leads_quantifiedAt fun x body hline => leads_formulaAt fun found _ => leads_require fun _ => ?_
  dsimp only
  split_ifs
  · exact leads_bind_same ⟨.refl t, rfl⟩
  obtain ⟨hx, hbody⟩ : isVar x ∧ body.WellFormed := (hr.clean hs).wellFormed_formula hline
  refine leads_parametrize hbody hx fun parametrized hpar => ?_
  have hbindings : Bindings.WellFormed (Table.ofList
      [("R", Binding.formula parametrized), ("Q", .formula goal), ("x", .var x)]) := by
    refine .ofList ?_
    simp only [List.forall_mem_cons, Binding.WellFormed]
    exact ⟨hpar, hg, hx, List.forall_mem_nil _⟩
  have hgeneralized : (Formula.all x (.imp body goal)).WellFormed := ⟨hx, hbody, hg⟩
  refine leads_transaction (leads_bind (leads_generalize hgeneralized) fun i u htu _ => ?_)
  refine leads_bind (leads_instantiate ⟨⟨hgeneralized, hx, hbody⟩, hg⟩
    (LogicalAxiom.wellFormed_schema _) hbindings) fun j v huv _ => ?_
  exact leads_conclude (huv.clean (htu.clean (hr.clean hs))) hg

end Session

end Deduction

import Deduction.Proofs.Primitive

/-!
# Rules for equality derive what they are asked for

A chain is extended on the right, link by link, and after each step the line that was added says
that the first term equals the right side of the last link so far (`Session.leads_chainAll`). So
the end of the chain is compared with the goal once, before the first step.
-/

namespace Deduction

namespace Session

variable {σ : Type} {s : Session σ} {undone : Bool}

theorem leads_reflexivity {t : Term} (ht : t.WellFormed) :
    s.Leads undone (reflexivity t) fun i u => u.Says i (.equality t t) := by
  refine leads_instantiate ⟨ht, ht⟩ (LogicalAxiom.wellFormed_schema _) ?_
  intro e he
  rcases Table.mem_insert he with rfl | he
  · exact ht
  · cases he

theorem leads_meaningOfEquality {a b : Term} {body tail : Formula} (ha : a.WellFormed)
    (hb : b.WellFormed) (hbody : body.WellFormed) (htail : tail.WellFormed) :
    s.Leads undone (meaningOfEquality a b body tail)
      fun i t => t.Says i (.imp (.equality a b) tail) := by
  refine leads_instantiate ⟨⟨ha, hb⟩, htail⟩ (LogicalAxiom.wellFormed_schema _) (.ofList ?_)
  simp only [List.forall_mem_cons, Binding.WellFormed]
  exact ⟨hbody, ha, hb, List.forall_mem_nil _⟩

theorem leads_flip {goal : Formula} {line : Nat} (hg : goal.WellFormed) :
    s.Leads undone (flip goal line) fun i t => t.Says i goal := by
  unfold flip
  refine leads_note fun t _ _ => leads_rejectPlaceholder fun _ => leads_equalityAt fun a b _ =>
    leads_require ?_
  rintro rfl
  obtain ⟨hb, ha⟩ := hg
  refine leads_transaction (leads_bind (leads_meaningOfEquality ha hb
    ⟨isConst_placeholder, ha⟩ ⟨⟨ha, ha⟩, hb, ha⟩) fun i u _ _ => ?_)
  refine leads_bind (leads_modusPonens ⟨⟨ha, ha⟩, hb, ha⟩) fun j v _ _ => ?_
  exact leads_bind (leads_reflexivity ha) fun k w _ _ => leads_modusPonens ⟨hb, ha⟩

theorem leads_replaceEqual {goal : Formula} {line : Nat} {parametrized : Term} (hs : s.Clean)
    (hg : goal.WellFormed) (hp : parametrized.WellFormed) :
    s.Leads undone (replaceEqual goal line parametrized) fun i t => t.Says i goal := by
  unfold replaceEqual
  refine leads_note fun t hr _ => leads_rejectPlaceholder fun _ => leads_equalityAt fun a b hline =>
    leads_liftCapture fun left _ => leads_liftCapture fun right _ => leads_require ?_
  rintro rfl
  obtain ⟨ha, hb⟩ : a.WellFormed ∧ b.WellFormed := (hr.clean hs).wellFormed_formula hline
  obtain ⟨hl, hright⟩ := hg
  refine leads_transaction (leads_bind (leads_meaningOfEquality ha hb
    ⟨hl, hp⟩ ⟨⟨hl, hl⟩, hl, hright⟩) fun i u _ _ => ?_)
  refine leads_bind (leads_modusPonens ⟨⟨hl, hl⟩, hl, hright⟩) fun j v _ _ => ?_
  exact leads_bind (leads_reflexivity hl) fun k w _ _ => leads_modusPonens ⟨hl, hright⟩

theorem leads_chainStep {left right : Nat} {a b c : Term} (ha : a.WellFormed) (hb : b.WellFormed)
    (hc : c.WellFormed) :
    s.Leads false (chainStep left a b c right) fun i t => t.Says i (.equality a c) := by
  refine leads_bind (leads_flip ⟨hb, ha⟩) fun i t _ _ => ?_
  refine leads_bind (leads_meaningOfEquality hb ha ⟨isConst_placeholder, hc⟩
    ⟨⟨hb, hc⟩, ha, hc⟩) fun j u _ _ => ?_
  exact leads_bind (leads_modusPonens ⟨⟨hb, hc⟩, ha, hc⟩) fun k v _ _ => leads_modusPonens ⟨ha, hc⟩

/-- Where a chain ends: at the right side of its last link, or where it starts if it has none. -/
theorem chainEnd_cons (b : Term) (link : Nat × Term × Term) (rest : List (Nat × Term × Term)) :
    ((link :: rest).getLast?.map (·.2.2)).getD b = (rest.getLast?.map (·.2.2)).getD link.2.2 := by
  rw [List.getLast?_cons]
  cases rest.getLast? <;> rfl

theorem leads_chainAll {a : Term} (ha : a.WellFormed) :
    ∀ {links : List (Nat × Term × Term)} {b : Term} {left : Nat} {s : Session σ},
      (∀ link ∈ links, link.2.1.WellFormed ∧ link.2.2.WellFormed) →
      s.Says left (.equality a b) →
      s.Leads false (chainAll a left links)
        fun i t => t.Says i (.equality a ((links.getLast?.map (·.2.2)).getD b))
  | [], b, left, s, _, h => leads_pure h
  | (line, b', c) :: rest, b, left, s, hlinks, h => by
    obtain ⟨⟨hb', hc⟩, hrest⟩ := List.forall_mem_cons.1 hlinks
    refine leads_bind (leads_chainStep ha hb' hc) fun i t _ hi => ?_
    rw [chainEnd_cons]
    exact leads_chainAll ha hrest hi

theorem leads_chain {goal : Formula} {lines : List Nat} (hs : s.Clean) :
    s.Leads undone (chain goal lines) fun i t => t.Says i goal := by
  unfold chain
  refine leads_note fun t hr _ => leads_rejectPlaceholder fun _ => ?_
  replace hs := hr.clean hs
  split
  · refine leads_equalityAt fun a b hfirst => ?_
    have hlook : ∀ (line : Nat) (next : Nat × Term × Term → Build σ Nat),
        (∀ link, t.Says line (.equality link.2.1 link.2.2) →
          t.Leads undone (next link) fun i t => t.Says i goal) →
        t.Leads undone ((do return (line, ← equalityAt line)) >>= next)
          fun i t => t.Says i goal := by
      intro line next h
      rw [bind_assoc]
      exact leads_equalityAt fun l r hline => h (line, l, r) hline
    refine leads_mapM hlook fun links hlinks => ?_
    split
    · exact leads_throw
    refine leads_require ?_
    rintro rfl
    obtain ⟨ha, hb⟩ : a.WellFormed ∧ b.WellFormed := hs.wellFormed_formula hfirst
    exact leads_transaction (leads_chainAll ha (forall_mem_of_forall₂
      (fun line link h => hs.wellFormed_formula h) hlinks) hfirst)
  · exact leads_throw

end Session

end Deduction

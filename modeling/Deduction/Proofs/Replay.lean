import Deduction.Proofs.OrderedSet
import Deduction.Proofs.Run
import Deduction.Proofs.Success

/-!
# Inlining and replay

A proof that verifies is added to a session whole, if its assumptions are among those of the session
and none of its formulas mentions the placeholder: its lines come behind those that are there, and
the line numbers in them are moved by as many (`Session.yields_inline`). Lines that are justified by
those before them stay so when they are moved together (`Line.Justified.shift`).

What comes out of a run is such a proof. A new session over its assumptions has these and no others,
in the same order, since the logical axioms come first among them already
(`Session.assumptions_reopened`). So the proof can be replayed there, and comes out again.
-/

namespace Deduction

/-! ## Moving lines -/

namespace Line

theorem States.shift {lines : List Line} {index reference : Nat} {f : Formula} (before : List Line)
    (h : States lines index reference f) :
    States (before ++ lines.map (·.shift before.length)) (before.length + index)
      (reference + before.length) f := by
  obtain ⟨hlt, hf⟩ := h
  refine ⟨by omega, ?_⟩
  rw [List.getElem?_append_right (by omega), Nat.add_sub_cancel, List.getElem?_map, Option.map_map]
  exact hf

theorem Justified.shift {accepted : Proposition → Prop} {assumptions : OrderedSet Schema}
    {lines : List Line} {index : Nat} {line : Line} (before : List Line)
    (h : line.Justified accepted assumptions lines index) :
    (line.shift before.length).Justified accepted assumptions
      (before ++ lines.map (·.shift before.length)) (before.length + index) := by
  obtain ⟨formula, reason⟩ := line
  cases reason with
  | assumption schema bindings => exact h
  | tautology => exact h
  | modusPonens antecedent conditional =>
    obtain ⟨premise, ha, hc⟩ := h
    exact ⟨premise, ha.shift before, hc.shift before⟩
  | generalization predicate =>
    obtain ⟨x, body, hf, hp⟩ := h
    exact ⟨x, body, hf, hp.shift before⟩

theorem Justified.of_subset {accepted : Proposition → Prop}
    {assumptions assumptions' : OrderedSet Schema} (hsub : ∀ a ∈ assumptions, a ∈ assumptions')
    {lines : List Line} {index : Nat} {line : Line}
    (h : line.Justified accepted assumptions lines index) :
    line.Justified accepted assumptions' lines index := by
  obtain ⟨formula, reason⟩ := line
  cases reason with
  | assumption schema bindings => exact ⟨hsub schema h.1, h.2⟩
  | _ => exact h

theorem shift_zero (line : Line) : line.shift 0 = line := by
  obtain ⟨formula, reason⟩ := line
  cases reason <;> rfl

end Line

/-- The lines of a proof that verifies are justified behind any others, when they are moved there
and the assumptions are still at hand. -/
theorem Proof.justified_shift {answer : Proposition → Bool} {p : Proof}
    (hverify : p.verify answer = .ok ()) {assumptions : OrderedSet Schema}
    (hsub : ∀ a ∈ p.assumptions, a ∈ assumptions) (before : List Line) (i : Nat) (line : Line)
    (hline : (p.lines.map (·.shift before.length))[i]? = some line) :
    line.Justified (answer · = true) assumptions
      (before ++ p.lines.map (·.shift before.length)) (before.length + i) := by
  rw [List.getElem?_map] at hline
  obtain ⟨l, hl, rfl⟩ := Option.map_eq_some_iff.1 hline
  exact (((Proof.verify_eq_ok_iff.1 hverify).2 i l hl).of_subset hsub).shift before

namespace Session

variable {σ : Type} {s : Session σ} {answer : Proposition → Bool}

/-! ## Inlining -/

theorem yields_inline {p : Proof} (hs : s.oracle = .ofFunction answer)
    (hgoal : placeholder ∉ p.conclusion.constants)
    (hlines : ∀ line ∈ p.lines, placeholder ∉ line.formula.constants)
    (hsub : ∀ a ∈ p.assumptions, a ∈ s.assumptions) (hverify : p.verify answer = .ok ()) :
    s.Yields (inline p.conclusion p) fun i t => i + 1 = s.lines.length + p.lines.length ∧
      t.assumptions = s.assumptions ∧
        t.lines = s.lines ++ p.lines.map (·.shift s.lines.length) := by
  have hnone : p.assumptions.toList.find? (· ∉ s.assumptions) = none :=
    OrderedSet.find?_not_mem_eq_none.2 hsub
  have hne : p.lines.map (·.shift s.lines.length) ≠ [] :=
    mt List.map_eq_nil_iff.1 (p.lines_ne_nil_of_verify hverify)
  unfold inline
  refine yields_note.2 (yields_rejectPlaceholder.2 ⟨hgoal, (yields_forM
    fun _ _ => yields_rejectPlaceholder).2 ⟨hlines, yields_require.2 ⟨rfl, yields_get.2 ?_⟩⟩⟩)
  generalize Event.inlining p.conclusion p.lines.length = e
  have hs' : (s.noted e).oracle = .ofFunction answer := hs
  have hnone' : p.assumptions.toList.find? (· ∉ (s.noted e).assumptions) = none := hnone
  simp only [hnone']
  refine (yields_lift (run_verifyM_ofFunction hs' p)).2 ?_
  rw [hverify]
  refine yields_transaction.2 ((yields_appendAll hs'
    (Proof.justified_shift hverify hsub s.lines)).mono ?_)
  rintro i t ⟨hi, rfl⟩
  refine ⟨?_, assumptions_foldl_added _ _, lines_foldl_added _ _⟩
  rw [hi, if_neg hne, List.length_map]
  rfl

/-! ## Replay -/

theorem assumptions_reopened {oracle : Oracle σ} {s₀ : Session σ} (h : Opened oracle s₀) {τ : Type}
    (settings : Settings) (oracle' : Oracle τ) (memory : τ) :
    (ofSettings s₀.assumptions.toList settings oracle' memory).assumptions = s₀.assumptions := by
  obtain ⟨assumptions, _, _, -, rfl⟩ := h.eq_ofSettings
  exact OrderedSet.insertMany_toList_insertMany _ assumptions

theorem perform_close_eq_ok {p : Proof} : (s.perform close).1 = .ok p ↔
    ∃ last, s.lines.getLast? = some last ∧ p = ⟨s.assumptions, last.formula, s.lines⟩ := by
  rw [perform_close]
  cases s.lines.getLast? with
  | none => simp
  | some last => simp [eq_comm]

/-- The proof that comes out of a run can be inlined in a new session over its assumptions that has
the same oracle, whatever its settings are. The answer is the number of its last line, and closing
that session gives the same proof. -/
theorem replay_closed_run {s₀ : Session σ} (hopen : Opened (.ofFunction answer) s₀)
    {steps : List Step} (hsteps : ∀ step ∈ steps, step.WellFormed) {p : Proof}
    (hp : ((s₀.performAll steps).perform close).1 = .ok p) {τ : Type} (settings : Settings)
    (memory : τ) :
    let r := ofSettings p.assumptions.toList settings (.ofFunction answer) memory
    let r' := (r.perform (inline p.conclusion p)).2
    (r.perform (inline p.conclusion p)).1 = .ok (p.lines.length - 1) ∧
      (r'.perform close).1 = .ok p := by
  intro r r'
  have hr := reaches_performAll hopen.clean hsteps
  have hs := hr.clean hopen.clean
  obtain ⟨last, hlast, rfl⟩ := perform_close_eq_ok.1 hp
  have hsame : r.assumptions = (s₀.performAll steps).assumptions :=
    calc r.assumptions
        = (ofSettings s₀.assumptions.toList settings (.ofFunction answer) memory).assumptions := by
          rw [← hr.assumptions]
      _ = s₀.assumptions := assumptions_reopened hopen settings _ memory
      _ = (s₀.performAll steps).assumptions := hr.assumptions.symm
  obtain ⟨i, t, hperform, hi, ha, hl⟩ := yields_iff.1 (yields_inline (s := r) rfl
    (hs.noPlaceholder last (List.mem_of_getLast? hlast)) hs.noPlaceholder
    (fun a ha => hsame ▸ ha) (hs.verify (hr.oracle.trans hopen.oracle) hlast))
  -- The new session has no lines, so nothing is moved.
  have hlines : t.lines = (s₀.performAll steps).lines := by
    rw [hl, show r.lines = [] from rfl, List.nil_append, List.length_nil]
    exact List.map_id'' Line.shift_zero _
  have hr' : r' = t := congrArg Prod.snd hperform
  rw [hperform, hr', perform_close_eq_ok, hlines, ha, hsame]
  refine ⟨?_, last, hlast, rfl⟩
  rw [show r.lines.length = 0 from rfl, Nat.zero_add] at hi
  rw [← hi, Nat.add_sub_cancel]

/-- The run has nine lines, after a step that failed. The new session takes its fresh variables
from another stem. -/
theorem replay_closed_run_of_failed_step :
    let P := fun t : Term => Formula.holds "P" [t]
    let steps : List Step := [.assume (.all "x" (P (.var "x"))), .tautology (P (.const "a")),
      .specialize (P (.var "y")) 0 (.var "y"),
      .instantiateFree (P (.const "a")) 2 (.single "y" (.const "a"))]
    let s := (start [.fixed (.all "x" (P (.var "x")))]).performAll steps
    (∀ step ∈ steps, step.WellFormed) ∧ ∃ p, (s.perform close).1 = .ok p ∧
      let r := ofSettings p.assumptions.toList { stem := "u" }
        (.ofFunction Proposition.isTautology) ()
      let r' := (r.perform (inline p.conclusion p)).2
      (r.perform (inline p.conclusion p)).1 = .ok 8 ∧ (r'.perform close).1 = .ok p := by
  intro P steps s
  have hsteps : ∀ step ∈ steps, step.WellFormed := by decide
  have hlength : s.lines.length = 9 := by decide +kernel
  have hreplay := fun (p : Proof) (hp : (s.perform close).1 = .ok p) =>
    replay_closed_run (Opened.start _) hsteps hp { stem := "u" } ()
  -- What follows does not depend on what the run computes to.
  clear_value s steps
  obtain ⟨last, hlast⟩ : ∃ last, s.lines.getLast? = some last := by
    refine Option.isSome_iff_exists.1 (List.getLast?_isSome.2 fun h => ?_)
    rw [h] at hlength
    cases hlength
  have hp := perform_close_eq_ok.2 ⟨last, hlast, rfl⟩
  have hindex : s.lines.length - 1 = 8 := by rw [hlength]
  rw [← hindex]
  exact ⟨hsteps, _, hp, hreplay _ hp⟩

end Session

end Deduction

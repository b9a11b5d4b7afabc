import Deduction.Proofs.Consequence
import Deduction.Proofs.Equality

/-!
# Runs of a session

A step of the caller keeps a clean session clean, states its goal in the line that it answers with
and leaves no lines behind when it fails (`Session.leads_build`). A new session has no lines, so it
is clean, and so is every session after any steps, failed ones among them
(`Session.reaches_performAll`). From a clean session whose oracle answers by a plain function comes
a proof that verifies (`Session.Clean.verify`).
-/

namespace Deduction

theorem OrderedSet.mem_insertMany {α : Type} [DecidableEq α] {a : α} :
    ∀ {values : List α} {s : OrderedSet α}, a ∈ s.insertMany values ↔ a ∈ s ∨ a ∈ values
  | [], s => by simp [insertMany]
  | b :: rest, s => by
    rw [insertMany, List.foldl_cons, ← insertMany, mem_insertMany, mem_insert, List.mem_cons,
      or_assoc]

namespace Session

variable {σ : Type} {s : Session σ}

theorem leads_build {step : Step} (hs : s.Clean) (hstep : step.WellFormed) :
    s.Leads true step.build fun i t => t.Says i step.goal := by
  cases step with
  | assume goal => exact leads_assume hstep
  | instantiate goal schema bindings => exact leads_instantiate hstep.1 hstep.2.1 hstep.2.2
  | tautology goal => exact leads_tautology hstep
  | modusPonens goal antecedent conditional => exact leads_modusPonens hstep
  | generalize goal line => exact leads_generalize hstep
  | specialize goal line term => exact leads_specialize hs hstep.1 hstep.2
  | conclude goal lines => exact leads_conclude hs hstep
  | eliminate goal existential conditional => exact leads_eliminate hs hstep
  | instantiateFree goal line m => exact leads_instantiateFree hs hstep.2
  | flip goal line => exact leads_flip hstep
  | replaceEqual goal line parametrized => exact leads_replaceEqual hs hstep.1 hstep.2
  | chain goal lines => exact leads_chain hs
  | inline goal proof => exact leads_inline hstep.2

theorem reaches_performAll : ∀ {steps : List Step} {s : Session σ}, s.Clean →
    (∀ step ∈ steps, step.WellFormed) → s.Reaches (s.performAll steps)
  | [], s, _, _ => .refl s
  | step :: rest, s, hs, hsteps => by
    obtain ⟨hstep, hrest⟩ := List.forall_mem_cons.1 hsteps
    have hfirst : s.Reaches (s.perform step.build).2 := (leads_build hs hstep).reaches
    exact hfirst.trans (reaches_performAll (hfirst.clean hs) hrest)

/-! ## New sessions -/

/-- A session that was just opened and has the oracle that is given. -/
inductive Opened : {σ : Type} → Oracle σ → Session σ → Prop
  | start (assumptions : List Schema) : Opened .truthTable (start assumptions)
  | startWith {σ : Type} {assumptions : List Schema} {settings : Settings} {oracle : Oracle σ}
    {memory : σ} {s : Session σ} (h : startWith assumptions settings oracle memory = .ok s) :
    Opened oracle s

theorem Opened.eq_ofSettings {oracle : Oracle σ} (h : Opened oracle s) :
    ∃ assumptions settings memory, isVar settings.stem ∧
      s = ofSettings assumptions settings oracle memory := by
  cases h with
  | start assumptions => exact ⟨assumptions, {}, (), by decide, rfl⟩
  | @startWith _ assumptions settings _ memory _ h =>
    unfold Session.startWith at h
    split_ifs at h with hstem
    exact ⟨assumptions, settings, memory, hstem, (Except.ok.inj h).symm⟩

theorem Opened.oracle {oracle : Oracle σ} (h : Opened oracle s) : s.oracle = oracle := by
  obtain ⟨_, _, _, -, rfl⟩ := h.eq_ofSettings
  rfl

theorem Opened.clean {oracle : Oracle σ} (h : Opened oracle s) : s.Clean := by
  obtain ⟨_, _, _, hstem, rfl⟩ := h.eq_ofSettings
  exact ⟨hstem, List.forall_mem_nil _, List.forall_mem_nil _, fun i line h => by cases h⟩

theorem Opened.schema_mem {oracle : Oracle σ} (h : Opened oracle s) (a : LogicalAxiom) :
    a.schema ∈ s.assumptions := by
  obtain ⟨assumptions, _, _, -, rfl⟩ := h.eq_ofSettings
  refine OrderedSet.mem_insertMany.2 (.inl (OrderedSet.mem_insertMany.2 (.inr ?_)))
  exact List.mem_map.2 ⟨a, by cases a <;> decide, rfl⟩

theorem Opened.performAll {oracle : Oracle σ} (h : Opened oracle s) {steps : List Step}
    (hsteps : ∀ step ∈ steps, step.WellFormed) : (s.performAll steps).Clean ∧
      ∀ a : LogicalAxiom, a.schema ∈ (s.performAll steps).assumptions := by
  have hr : s.Reaches (s.performAll steps) := reaches_performAll h.clean hsteps
  rw [hr.assumptions]
  exact ⟨hr.clean h.clean, h.schema_mem⟩

/-! ## Closing -/

theorem perform_close (s : Session σ) : (s.perform close).1 = match s.lines.getLast? with
    | none => .error .emptyProof
    | some last => .ok ⟨s.assumptions, last.formula, s.lines⟩ := by
  rw [close, perform_bind]
  change (s.perform (match s.lines.getLast? with | none => _ | some last => _)).1 = _
  cases s.lines.getLast? with
  | none => rfl
  | some last => rfl

section

variable {answer : Proposition → Bool}

theorem Clean.justified_ofFunction (hs : s.Clean) (hanswer : s.oracle = .ofFunction answer)
    {i : Nat} {line : Line} (hline : s.lines[i]? = some line) :
    line.Justified (answer · = true) s.assumptions s.lines i := by
  refine (hs.justified i line hline).imp fun p hp => ?_
  rw [hanswer] at hp
  exact Oracle.accepts_ofFunction hp

theorem Clean.check (hs : s.Clean) (hanswer : s.oracle = .ofFunction answer) {i : Nat}
    {line : Line} (hline : s.lines[i]? = some line) :
    line.check answer s.assumptions (s.lines.take i) i = .ok () := by
  rw [Line.check_eq_ok_iff, Line.justified_take]
  exact hs.justified_ofFunction hanswer hline

theorem Clean.verify (hs : s.Clean) (hanswer : s.oracle = .ofFunction answer) {last : Line}
    (hlast : s.lines.getLast? = some last) :
    Proof.verify answer ⟨s.assumptions, last.formula, s.lines⟩ = .ok () := by
  rw [Proof.verify_eq_ok_iff]
  refine ⟨?_, fun i line hline => hs.justified_ofFunction hanswer hline⟩
  rw [hlast, Option.map_some]

end

/-- After any steps, each line of a session whose oracle answers by a plain function passes its
check on the lines before it alone, and the session rests on what it was opened with. It can be
closed just when it has a line, and the proof that comes out is one of the last line's formula and
verifies. -/
theorem closed_run_verifies {answer : Proposition → Bool} {s₀ : Session σ}
    (hopen : Opened (.ofFunction answer) s₀) {steps : List Step}
    (hsteps : ∀ step ∈ steps, step.WellFormed) :
    let s := s₀.performAll steps
    (∀ (i : Nat) (line : Line), s.lines[i]? = some line →
      line.check answer s.assumptions (s.lines.take i) i = .ok () ∧
        line.formula.WellFormed ∧ placeholder ∉ line.formula.constants) ∧
    s.assumptions = s₀.assumptions ∧ (∀ a : LogicalAxiom, a.schema ∈ s.assumptions) ∧
    ((∃ p, (s.perform close).1 = .ok p) ↔ s.lines ≠ []) ∧
    ∀ p, (s.perform close).1 = .ok p → p.assumptions = s.assumptions ∧ p.lines = s.lines ∧
      s.lines.getLast?.map Line.formula = some p.conclusion ∧ p.verify answer = .ok () := by
  intro s
  have hr : s₀.Reaches s := reaches_performAll hopen.clean hsteps
  have hs : s.Clean := hr.clean hopen.clean
  have hanswer : s.oracle = .ofFunction answer := hr.oracle.trans hopen.oracle
  refine ⟨fun i line hline => ?_, hr.assumptions, fun a => ?_, ?_, fun p hp => ?_⟩
  · have hmem : line ∈ s.lines := List.mem_of_getElem? hline
    exact ⟨hs.check hanswer hline, (hs.wellFormed line hmem).1, hs.noPlaceholder line hmem⟩
  · rw [hr.assumptions]
    exact hopen.schema_mem a
  · rw [perform_close, ← List.getLast?_isSome]
    cases s.lines.getLast? with
    | none => simp
    | some last => simp
  · rw [perform_close] at hp
    cases hlast : s.lines.getLast? with
    | none =>
      rw [hlast] at hp
      cases hp
    | some last =>
      rw [hlast] at hp
      cases hp
      exact ⟨rfl, rfl, rfl, hs.verify hanswer hlast⟩

/-- A run in which the second step fails. The last one gives the line `P(y)` the constant `a` for
its variable, by way of a fresh variable. -/
theorem closed_run_verifies_of_failed_step :
    let P := fun t : Term => Formula.holds "P" [t]
    let steps : List Step := [.assume (.all "x" (P (.var "x"))), .tautology (P (.const "a")),
      .specialize (P (.var "y")) 0 (.var "y"),
      .instantiateFree (P (.const "a")) 2 (.single "y" (.const "a"))]
    let s := (start [.fixed (.all "x" (P (.var "x")))]).performAll steps
    (∀ step ∈ steps, step.WellFormed) ∧ s.lines.length = 9 ∧
      ∃ p, (s.perform close).1 = .ok p ∧ p.lines = s.lines ∧ p.conclusion = P (.const "a") ∧
        p.verify Proposition.isTautology = .ok () := by
  intro P steps s
  have hsteps : ∀ step ∈ steps, step.WellFormed := by decide
  have hlength : s.lines.length = 9 := by decide +kernel
  obtain ⟨-, -, -, hclose, hproof⟩ := closed_run_verifies (Opened.start _) hsteps
  have hne : s.lines ≠ [] := by
    intro h
    rw [h] at hlength
    cases hlength
  obtain ⟨p, hp⟩ := hclose.2 hne
  obtain ⟨-, hlines, hlast, hverify⟩ := hproof p hp
  have hformula : s.lines.getLast?.map Line.formula = some (P (.const "a")) := by
    decide +kernel
  exact ⟨hsteps, hlength, p, hp, hlines, Option.some.inj (hlast.symm.trans hformula), hverify⟩

/-- A step that fails leaves the lines, the assumptions and the settings as they were. One that
succeeds adds lines to those that were there, and the line that it answers with states its goal.
This is so after any steps and with any oracle. -/
theorem step_fails_unchanged_or_states_goal {oracle : Oracle σ} {s₀ : Session σ}
    (hopen : Opened oracle s₀) {steps : List Step} (hsteps : ∀ step ∈ steps, step.WellFormed)
    {step : Step} (hstep : step.WellFormed) :
    let s := s₀.performAll steps
    let s' := (s.perform step.build).2
    (∀ e, (s.perform step.build).1 = .error e →
      s'.lines = s.lines ∧ s'.assumptions = s.assumptions ∧ s'.settings = s.settings) ∧
    ∀ i, (s.perform step.build).1 = .ok i →
      s.lines <+: s'.lines ∧ ∃ line, s'.lines[i]? = some line ∧ line.formula = step.goal := by
  intro s s'
  have hs : s.Clean := (reaches_performAll hopen.clean hsteps).clean hopen.clean
  have hlead := leads_build hs hstep
  have hr : s.Reaches s' := hlead.reaches
  refine ⟨fun e he => ⟨?_, hr.assumptions, hr.settings⟩, fun i hi => ⟨hr.lines, ?_⟩⟩
  · exact hlead.lines_eq he
  · exact Option.map_eq_some_iff.1 (hlead.result hi)

/-- The oracle says no to the first question and yes to all others. It is asked after two lines
were added, so the first attempt takes these back; the second adds six. -/
theorem step_fails_unchanged_then_states_goal :
    let oracle : Oracle Nat := fun _ => modifyGet fun n => (decide (n ≠ 0), n + 1)
    let P := Formula.holds "P" [.var "x"]
    let Q := Formula.holds "Q" []
    let s₀ := ofSettings [.fixed (.ex "x" P), .fixed (.imp P Q)] {} oracle 0
    let steps : List Step := [.assume (.ex "x" P), .assume (.imp P Q)]
    let step : Step := .eliminate Q 0 1
    let s := s₀.performAll steps
    let s' := (s.perform step.build).2
    let t := s₀.performAll (steps ++ [step])
    let t' := (t.perform step.build).2
    (∀ r ∈ steps ++ [step], r.WellFormed) ∧ (∃ e, (s.perform step.build).1 = .error e) ∧
      (s'.lines = s.lines ∧ s'.assumptions = s.assumptions ∧ s'.settings = s.settings) ∧
      (t.perform step.build).1 = .ok 7 ∧ t'.lines.length = 8 ∧
      t.lines <+: t'.lines ∧ ∃ line, t'.lines[7]? = some line ∧ line.formula = Q := by
  intro oracle P Q s₀ steps step s s' t t'
  have hopen : Opened oracle s₀ := .startWith (show startWith
    [.fixed (.ex "x" P), .fixed (.imp P Q)] {} oracle 0 = .ok s₀ from if_pos (by decide))
  have hall : ∀ r ∈ steps ++ [step], r.WellFormed := by decide
  obtain ⟨hsteps, hstep⟩ := List.forall_mem_append.1 hall
  replace hstep : step.WellFormed := hstep step (List.mem_singleton.2 rfl)
  have hfirst : (s.perform step.build).1.toOption = none := by decide +kernel
  have hsecond : (t.perform step.build).1.toOption = some 7 := by decide +kernel
  have hlength : t'.lines.length = 8 := by decide +kernel
  have hgoal : step.goal = Q := rfl
  have hs := step_fails_unchanged_or_states_goal hopen hsteps hstep
  have ht := step_fails_unchanged_or_states_goal hopen hall hstep
  -- What follows does not depend on what the run computes to.
  clear_value s₀ steps step
  rw [hgoal] at ht
  cases hrun : (s.perform step.build).1 with
  | ok i =>
    rw [hrun] at hfirst
    cases hfirst
  | error e =>
    cases hrun' : (t.perform step.build).1 with
    | error e' =>
      rw [hrun'] at hsecond
      cases hsecond
    | ok i =>
      rw [hrun'] at hsecond
      cases hsecond
      exact ⟨hall, ⟨e, rfl⟩, hs.1 e hrun, rfl, hlength, ht.2 7 hrun'⟩

end Session

end Deduction

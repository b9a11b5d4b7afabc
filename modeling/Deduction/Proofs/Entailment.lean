import Deduction.Proofs.AxiomInstance
import Deduction.Proofs.Run
import Deduction.Proofs.TruthTable

/-!
# Consequences are drawn just when they follow

The rule for consequences asks for one tautology, the implication of the goal by all premises. It is
true under a valuation of the prime formulas just when the goal is true or some premise is not
(`Formula.truth_implications`), so with truth tables for an oracle the rule succeeds just when the
goal follows. Nothing after the tautology can fail: each modus ponens finds the rest of the
implication in the line before it (`Session.yields_discharge`).

The rule for existential lines ends with such a consequence, of three lines among which two are
its own. It holds whatever the formulas are, since the last of the three says that the goal follows
from the other two.
-/

namespace Deduction

namespace Formula

theorem truth_implications (v : Formula → Bool) (goal : Formula) : ∀ premises : List Formula,
    (implications premises goal).truth v = true ↔
      ((∀ p ∈ premises, p.truth v = true) → goal.truth v = true)
  | [] => by simp [implications]
  | p :: rest => by
    have hrest := truth_implications v goal rest
    change (!p.truth v || (implications rest goal).truth v) = true ↔ _
    rw [Bool.or_eq_true, hrest, Bool.not_eq_true', List.forall_mem_cons, and_imp]
    cases p.truth v <;> simp

theorem not_mem_constants_implications {c : String} {goal : Formula} (hg : c ∉ goal.constants) :
    ∀ {premises : List Formula}, (∀ p ∈ premises, c ∉ p.constants) →
      c ∉ (implications premises goal).constants
  | [], _ => hg
  | p :: rest, h => by
    obtain ⟨hp, hrest⟩ := List.forall_mem_cons.1 h
    have ih : c ∉ (implications rest goal).constants := not_mem_constants_implications hg hrest
    change c ∉ p.constants ++ (implications rest goal).constants
    simp [hp, ih]

end Formula

namespace Session

variable {σ : Type} {s : Session σ} {goal : Formula} {Q : Nat → Session σ → Prop}

/-! ## From several lines -/

/-- The lines that take premises off an implication, which is stated in the line `current`. -/
def discharges (goal : Formula) (current : Nat) (lines : List Nat) (premises : List Formula) :
    List Line :=
  lines.mapIdx fun k line =>
    ⟨.implications (premises.drop (k + 1)) goal, .modusPonens line (current + k)⟩

theorem discharges_cons (current line : Nat) (lines : List Nat) (p : Formula)
    (premises : List Formula) : discharges goal current (line :: lines) (p :: premises)
      = ⟨.implications premises goal, .modusPonens line current⟩
        :: discharges goal (current + 1) lines premises := by
  simp only [discharges, List.mapIdx_cons, List.drop_succ_cons, List.drop_zero, Nat.add_zero,
    Nat.add_assoc, Nat.add_comm 1]

theorem yields_discharge (hgoal : placeholder ∉ goal.constants) :
    ∀ {lines : List Nat} {premises : List Formula} {current : Nat} {s : Session σ},
      List.Forall₂ s.Says lines premises → (∀ p ∈ premises, placeholder ∉ p.constants) →
      s.Says current (.implications premises goal) → current + 1 = s.lines.length →
      (s.Yields (discharge goal current (lines.zip premises)) Q ↔
        Q (current + lines.length) ((discharges goal current lines premises).foldl added s))
  | [], [], _, _, _, _, _, _ => Iff.rfl
  | line :: lines, p :: premises, current, s, hstated, hclean, hcurrent, hlast => by
    obtain ⟨hline, hrest⟩ := List.forall₂_cons.1 hstated
    obtain ⟨-, hclean⟩ := List.forall_mem_cons.1 hclean
    have hzip : (lines.zip premises).map Prod.snd = premises :=
      List.map_snd_zip (Nat.le_of_eq hrest.length_eq.symm)
    set l : Line := ⟨.implications premises goal, .modusPonens line current⟩
    have hadded : List.Forall₂ (s.added l).Says lines premises :=
      hrest.imp fun _ _ h => h.mono (List.prefix_append ..)
    have hnext : (s.added l).Says (current + 1) (.implications premises goal) := by
      rw [hlast]
      exact says_added_last
    have ih := yields_discharge hgoal hadded hclean hnext (by rw [length_added, hlast])
    rw [List.zip_cons_cons, discharge, hzip, yields_bind, yields_modusPonens,
      and_iff_right (Formula.not_mem_constants_implications hgoal hclean),
      and_iff_right ⟨p, hline, hcurrent⟩, ← hlast, ih, discharges_cons, List.foldl_cons,
      List.length_cons, Nat.add_assoc, Nat.add_comm 1]

/-- The lines that derive the goal from premises: the implication, and what is left of it after each
of them. -/
def conclusion (s : Session σ) (goal : Formula) (lines : List Nat) (premises : List Formula) :
    List Line :=
  ⟨.implications premises goal, .tautology⟩ :: discharges goal s.lines.length lines premises

section

variable {answer : Proposition → Bool} (hs : s.oracle = .ofFunction answer) {lines : List Nat}

include hs

theorem yields_conclusion {premises : List Formula} (hgoal : placeholder ∉ goal.constants)
    (hstated : List.Forall₂ s.Says lines premises)
    (hclean : ∀ p ∈ premises, placeholder ∉ p.constants) :
    s.Yields (do
      let current ← tautology (.implications premises goal)
      discharge goal current (lines.zip premises)) Q ↔
      answer (Formula.implications premises goal).skeleton.proposition = true ∧
        Q (s.lines.length + lines.length) ((s.conclusion goal lines premises).foldl added s) := by
  set l : Line := ⟨.implications premises goal, .tautology⟩
  have hadded : List.Forall₂ (s.added l).Says lines premises :=
    hstated.imp fun _ _ h => h.mono (List.prefix_append ..)
  have hdischarge := @yields_discharge σ goal Q hgoal lines premises _ _ hadded hclean
    says_added_last (length_added l).symm
  rw [yields_bind, yields_tautology hs, hdischarge,
    and_iff_right (Formula.not_mem_constants_implications hgoal hclean)]
  rfl

theorem yields_conclude (hclean : ∀ line ∈ s.lines, placeholder ∉ line.formula.constants) :
    s.Yields (conclude goal lines) Q ↔
      placeholder ∉ goal.constants ∧ ∃ premises, List.Forall₂ s.Says lines premises ∧
        answer (Formula.implications premises goal).skeleton.proposition = true ∧
          Q (s.lines.length + lines.length) ((s.conclusion goal lines premises).foldl added
            (s.noted (.concluding goal lines))) := by
  have hpremises : ∀ {premises}, List.Forall₂ s.Says lines premises →
      ∀ p ∈ premises, placeholder ∉ p.constants := by
    refine forall_mem_of_forall₂ fun line p h => ?_
    obtain ⟨l, hl, rfl⟩ := Option.map_eq_some_iff.1 h
    exact hclean l (List.mem_of_getElem? hl)
  unfold conclude
  rw [yields_note, yields_rejectPlaceholder, yields_mapM fun _ _ => yields_formulaAt]
  refine and_congr_right fun hgoal => ?_
  -- The lines are looked up from the last to the first.
  constructor
  · rintro ⟨formulas, hformulas, h⟩
    have hstated : List.Forall₂ s.Says lines formulas.reverse := by
      rw [← List.forall₂_reverse_iff, List.reverse_reverse]
      exact hformulas
    refine ⟨formulas.reverse, hstated, ?_⟩
    exact (yields_conclusion (s := s.noted _) hs hgoal hstated (hpremises hstated)).1
      (yields_transaction.1 h)
  · rintro ⟨premises, hstated, h⟩
    refine ⟨premises.reverse, List.forall₂_reverse_iff.2 hstated, yields_transaction.2 ?_⟩
    rw [List.reverse_reverse]
    exact (yields_conclusion (s := s.noted _) hs hgoal hstated (hpremises hstated)).2 h

end

theorem says_conclusion {lines : List Nat} {premises : List Formula}
    (hlength : lines.length = premises.length) {t : Session σ}
    (ht : t.lines = s.lines ++ s.conclusion goal lines premises) :
    t.Says (s.lines.length + lines.length) goal := by
  rw [says_append ht, conclusion]
  cases lines with
  | nil =>
    rw [List.length_eq_zero_iff.1 hlength.symm]
    rfl
  | cons line rest =>
    have hall : premises.drop (rest.length + 1) = [] :=
      List.drop_eq_nil_of_le (Nat.le_of_eq hlength.symm)
    rw [List.length_cons, List.getElem?_cons_succ, discharges, List.getElem?_mapIdx,
      List.getElem?_eq_getElem (Nat.lt_succ_self rest.length), Option.map_some, Option.map_some,
      hall]
    rfl

/-- With truth tables for an oracle, a goal is concluded from some lines just when it does not
mention the placeholder, there are such lines, and the goal is true under every valuation of the
prime formulas that makes all of them true. Then one line is added for the implication of the goal
by the premises, in the order that is given, and one for each premise that is taken off it, in the
same order. The answer is the last line, which states the goal. This is so after any steps. -/
theorem conclude_exact {s₀ : Session σ} (hopen : Opened .truthTable s₀) {steps : List Step}
    (hsteps : ∀ step ∈ steps, step.WellFormed) (goal : Formula) (lines : List Nat) :
    let s := s₀.performAll steps
    let s' := (s.perform (conclude goal lines)).2
    ((∃ i, (s.perform (conclude goal lines)).1 = .ok i) ↔
      placeholder ∉ goal.constants ∧ ∃ premises, List.Forall₂ s.Says lines premises ∧
        ∀ v, (∀ p ∈ premises, p.truth v = true) → goal.truth v = true) ∧
    ∀ i, (s.perform (conclude goal lines)).1 = .ok i →
      i = s.lines.length + lines.length ∧ s'.Says i goal ∧
        ∃ premises, List.Forall₂ s.Says lines premises ∧
          s'.lines = s.lines ++ ⟨.implications premises goal, .tautology⟩ ::
            lines.mapIdx fun k line => ⟨.implications (premises.drop (k + 1)) goal,
              .modusPonens line (s.lines.length + k)⟩ := by
  intro s s'
  have hr : s₀.Reaches s := reaches_performAll hopen.clean hsteps
  have hs : s.oracle = .ofFunction Proposition.isTautology := hr.oracle.trans hopen.oracle
  have hclean := (hr.clean hopen.clean).noPlaceholder
  have htaut : ∀ premises,
      (Formula.implications premises goal).skeleton.proposition.isTautology = true ↔
        ∀ v, (∀ p ∈ premises, p.truth v = true) → goal.truth v = true := by
    intro premises
    rw [← Formula.isTautology, Formula.isTautology_iff]
    exact forall_congr' fun v => Formula.truth_implications v goal premises
  constructor
  · rw [exists_perform_eq_ok, yields_conclude hs hclean]
    simp only [and_true, htaut]
  · intro i hi
    obtain ⟨-, premises, hstated, -, rfl, ht⟩ := (yields_conclude hs hclean).1 (perform_eq_ok.1 hi)
    have hlines : s'.lines = s.lines ++ s.conclusion goal lines premises := by
      rw [show s' = _ from ht.symm, lines_foldl_added]
      rfl
    exact ⟨rfl, says_conclusion hstated.length_eq hlines, premises, hstated, hlines⟩

/-- From `Ax[R(x)]` and `(Ax[R(x)]->c=d)`, the former taken twice, follows `c=d`, in four lines. But
`R(c)` does not follow from `Ax[R(x)]` by propositional logic. -/
theorem conclude_exact_repeated :
    let P := Formula.all "x" (.holds "R" [.var "x"])
    let E := Formula.equality (.const "c") (.const "d")
    let steps : List Step := [.assume (.imp P E), .tautology E, .assume P]
    let s := (start [.fixed P, .fixed (.imp P E)]).performAll steps
    let s' := (s.perform (conclude E [1, 0, 1])).2
    (∀ step ∈ steps, step.WellFormed) ∧ (s.perform (conclude E [1, 0, 1])).1 = .ok 5 ∧
      s'.lines = s.lines ++ [⟨.imp P (.imp (.imp P E) (.imp P E)), .tautology⟩,
        ⟨.imp (.imp P E) (.imp P E), .modusPonens 1 2⟩, ⟨.imp P E, .modusPonens 0 3⟩,
        ⟨E, .modusPonens 1 4⟩] ∧
      ¬∃ i, (s.perform (conclude (.holds "R" [.const "c"]) [1])).1 = .ok i := by
  intro P E steps s s'
  have hsteps : ∀ step ∈ steps, step.WellFormed := by decide
  have hlength : s.lines.length = 2 := by decide +kernel
  have hP : s.Says 1 P := by decide +kernel
  have hPE : s.Says 0 (.imp P E) := by decide +kernel
  have hexact := conclude_exact (Opened.start [.fixed P, .fixed (.imp P E)]) hsteps
  have hunique : Relator.RightUnique s.Says := fun i f g hf hg => Option.some.inj (hf.symm.trans hg)
  have hpremises : List.Forall₂ s.Says [1, 0, 1] [P, .imp P E, P] :=
    .cons hP (.cons hPE (.cons hP .nil))
  have hfollows : ∀ v, (∀ p ∈ [P, .imp P E, P], p.truth v = true) → E.truth v = true := by
    intro v hv
    have hvP : P.truth v = true := hv P (by decide)
    have hvPE : (!P.truth v || E.truth v) = true := hv (.imp P E) (by decide)
    rwa [hvP] at hvPE
  obtain ⟨hiff, hadded⟩ := hexact E [1, 0, 1]
  obtain ⟨i, hi⟩ := hiff.2 ⟨by decide, _, hpremises, hfollows⟩
  obtain ⟨rfl, -, premises, hstated, hlines⟩ := hadded i hi
  cases List.right_unique_forall₂' hunique hstated hpremises
  refine ⟨hsteps, ?_, ?_, fun h => ?_⟩
  · rw [hi, hlength]
    rfl
  · rw [hlines, hlength]
    rfl
  · obtain ⟨-, premises, hstated, hfollows⟩ := (hexact _ [1]).1.1 h
    cases List.right_unique_forall₂' hunique hstated (.cons hP .nil)
    -- A valuation that makes `Ax[R(x)]` true and no other prime formula.
    exact absurd (hfollows (fun f => decide (f = P)) (by decide)) (by decide)

/-! ## From an existential line -/

/-- The six lines that derive the goal from `Ex[P]` and `(P->goal)`: the latter for all values of
the variable, an instance of the axiom, and the lines that conclude the goal from both and the line
`Ex[P]`. -/
def elimination (s : Session σ) (goal : Formula) (existential conditional : Nat) (x : String)
    (body parametrized : Formula) : List Line :=
  let generalized := Formula.all x (.imp body goal)
  let simplification := Formula.imp (.conj generalized (.ex x body)) goal
  [⟨generalized, .generalization conditional⟩,
    ⟨simplification, .assumption LogicalAxiom.existentialSimplification.schema
      (.ofList [("R", .formula parametrized), ("Q", .formula goal), ("x", .var x)])⟩,
    ⟨.imp (.ex x body) (.imp generalized (.imp simplification goal)), .tautology⟩,
    ⟨.imp generalized (.imp simplification goal),
      .modusPonens existential (s.lines.length + 2)⟩,
    ⟨.imp simplification goal, .modusPonens s.lines.length (s.lines.length + 3)⟩,
    ⟨goal, .modusPonens (s.lines.length + 1) (s.lines.length + 4)⟩]

/-- Whatever the valuation makes of the goal, it makes the same of it in the instance. -/
theorem isTautology_elimination (goal body : Formula) (x : String) :
    (Formula.implications [.ex x body, .all x (.imp body goal),
      .imp (.conj (.all x (.imp body goal)) (.ex x body)) goal] goal).isTautology = true := by
  rw [Formula.isTautology_iff]
  intro v
  rw [Formula.truth_implications]
  intro h
  simp only [List.forall_mem_cons] at h
  obtain ⟨hex, hall, hinstance, -⟩ := h
  change (!((Formula.all x (.imp body goal)).truth v && (Formula.ex x body).truth v)
    || goal.truth v) = true at hinstance
  rwa [hex, hall] at hinstance

theorem yields_eliminate {existential conditional : Nat} {x : String}
    {body parametrized : Formula} (hs : s.Clean)
    (horacle : s.oracle = .ofFunction Proposition.isTautology)
    (hES : LogicalAxiom.existentialSimplification.schema ∈ s.assumptions)
    (hgoal : placeholder ∉ goal.constants) (hexistential : s.Says existential (.ex x body))
    (hconditional : s.Says conditional (.imp body goal)) (hfree : x ∉ goal.freeVars)
    (hpar : body.substitute (.single x (.const placeholder)) [] = .ok parametrized) :
    s.Yields (eliminate goal existential conditional) fun i t => i = s.lines.length + 5 ∧
      t.lines = s.lines ++ s.elimination goal existential conditional x body parametrized := by
  obtain ⟨hx, hbody⟩ : isVar x ∧ body.WellFormed := hs.wellFormed_formula hexistential
  have hclean : placeholder ∉ (Formula.ex x body).constants :=
    hs.noPlaceholder_formula hexistential
  have hgeneralized : placeholder ∉ (Formula.imp body goal).constants :=
    hs.noPlaceholder_formula hconditional
  have hsimplification : placeholder ∉
      (Formula.imp (.conj (.all x (.imp body goal)) (.ex x body)) goal).constants := by
    simp only [Formula.imp, Formula.conj, Formula.constants, List.mem_append, not_or]
    exact ⟨⟨hgeneralized, hclean⟩, hgoal⟩
  unfold eliminate
  refine yields_note.2 (yields_rejectPlaceholder.2 ⟨hgoal, yields_quantifiedAt.2 ⟨x, body,
    hexistential, yields_formulaAt.2 ⟨_, hconditional, yields_require.2 ⟨rfl, ?_⟩⟩⟩⟩)
  simp only [if_neg hfree]
  refine yields_liftCapture.2 ⟨parametrized, hpar, yields_transaction.2 (yields_bind.2
    (yields_generalize.2 ⟨hgeneralized, ⟨x, _, rfl, hconditional⟩, yields_bind.2
      (yields_instantiate.2 ⟨hsimplification, hES, ?_, ?_⟩)⟩))⟩
  · exact LogicalAxiom.instantiate_existentialSimplification hbody hx hclean hpar hfree
  · set t := added (s.noted _) _
    set u := t.added _
    have ht : t.lines.length = s.lines.length + 1 := length_added _
    have hu : u.lines.length = s.lines.length + 2 := by rw [length_added, ht]
    have hold : s.lines <+: u.lines := (List.prefix_append ..).trans (List.prefix_append ..)
    have hstated : t.Says s.lines.length (.all x (.imp body goal)) := says_added_last
    replace hstated : u.Says s.lines.length _ := hstated.mono (List.prefix_append ..)
    refine (yields_conclude (s := u) horacle ?_).2 ⟨hgoal, _, .cons (hexistential.mono hold)
      (.cons hstated (.cons says_added_last .nil)), isTautology_elimination goal body x, ?_, ?_⟩
    · refine List.forall_mem_append.2 ⟨List.forall_mem_append.2 ⟨hs.noPlaceholder, ?_⟩, ?_⟩
      · exact List.forall_mem_singleton.2 hgeneralized
      · exact List.forall_mem_singleton.2 hsimplification
    · rw [hu]
      rfl
    · rw [lines_foldl_added, conclusion, hu, ht]
      change (s.lines ++ [_]) ++ [_] ++ _ = _
      rw [List.append_assoc, List.append_assoc]
      rfl

theorem of_yields_eliminate {existential conditional : Nat}
    (h : s.Yields (eliminate goal existential conditional) Q) :
    placeholder ∉ goal.constants ∧ ∃ x body, s.Says existential (.ex x body) ∧
      s.Says conditional (.imp body goal) ∧ x ∉ goal.freeVars := by
  unfold eliminate at h
  obtain ⟨hgoal, h⟩ := yields_rejectPlaceholder.1 (yields_note.1 h)
  obtain ⟨x, body, hexistential, h⟩ := yields_quantifiedAt.1 h
  obtain ⟨found, hconditional, h⟩ := yields_formulaAt.1 h
  obtain ⟨rfl, hrest⟩ := yields_require.1 h
  dsimp only at hrest
  split_ifs at hrest with hfree
  · exact (yields_bind.1 hrest).elim
  · exact ⟨hgoal, x, body, hexistential, hconditional, hfree⟩

/-- With truth tables for an oracle, a goal is derived from an existential line and a conditional
one just when it does not mention the placeholder, the one line says `Ex[P]` and the other
`(P->goal)`, and `x` is not free in the goal. Then six lines are added, and the answer is the last,
which states the goal. This is so after any steps. -/
theorem eliminate_exact {s₀ : Session σ} (hopen : Opened .truthTable s₀) {steps : List Step}
    (hsteps : ∀ step ∈ steps, step.WellFormed) (goal : Formula) (existential conditional : Nat) :
    let s := s₀.performAll steps
    let s' := (s.perform (eliminate goal existential conditional)).2
    ((∃ i, (s.perform (eliminate goal existential conditional)).1 = .ok i) ↔
      placeholder ∉ goal.constants ∧ ∃ x P, s.Says existential (.ex x P) ∧
        s.Says conditional (.imp P goal) ∧ x ∉ goal.freeVars) ∧
    ∀ i, (s.perform (eliminate goal existential conditional)).1 = .ok i →
      i = s.lines.length + 5 ∧ s'.lines.length = s.lines.length + 6 ∧ s'.Says i goal ∧
        ∃ x P parametrized, s.Says existential (.ex x P) ∧
          P.substitute (.single x (.const placeholder)) [] = .ok parametrized ∧
          s'.lines = s.lines ++ s.elimination goal existential conditional x P parametrized := by
  intro s s'
  have hr : s₀.Reaches s := reaches_performAll hopen.clean hsteps
  obtain ⟨hs, haxioms⟩ : s.Clean ∧ ∀ a : LogicalAxiom, a.schema ∈ s.assumptions :=
    hopen.performAll hsteps
  have horacle : s.oracle = .ofFunction Proposition.isTautology := hr.oracle.trans hopen.oracle
  constructor
  · rw [exists_perform_eq_ok]
    refine ⟨of_yields_eliminate, ?_⟩
    rintro ⟨hgoal, x, P, hexistential, hconditional, hfree⟩
    obtain ⟨parametrized, hpar⟩ := P.exists_parametrized x
    exact (yields_eliminate hs horacle (haxioms _) hgoal hexistential hconditional hfree hpar).mono
      fun _ _ _ => trivial
  · intro i hi
    obtain ⟨hgoal, x, P, hexistential, hconditional, hfree⟩ :=
      of_yields_eliminate (perform_eq_ok.1 hi)
    obtain ⟨parametrized, hpar⟩ := P.exists_parametrized x
    obtain ⟨hindex, hlines⟩ := After.of_ok (yields_eliminate hs horacle (haxioms _) hgoal
      hexistential hconditional hfree hpar) hi
    have hlength : s'.lines.length = s.lines.length + 6 := by
      rw [hlines, List.length_append]
      rfl
    refine ⟨hindex, hlength, ?_, x, P, parametrized, hexistential, hpar, hlines⟩
    rw [hindex]
    exact (says_append hlines 5).2 rfl

/-- `Ex[R(x)]` has the variable but not free, and follows from `Ex[(R(x)&S(x))]`. The body implies
`R(x)` too, but that cannot be derived, since the variable is free in it. -/
theorem eliminate_exact_bound :
    let R := Formula.holds "R" [.var "x"]
    let P := Formula.conj R (.holds "S" [.var "x"])
    let steps : List Step :=
      [.assume (.ex "x" P), .assume (.imp P (.ex "x" R)), .tautology (.imp P R)]
    let s₀ := start [.fixed (.ex "x" P), .fixed (.imp P (.ex "x" R))]
    let s := s₀.performAll steps
    let s' := (s.perform (eliminate (.ex "x" R) 0 1)).2
    (∀ step ∈ steps, step.WellFormed) ∧ (s.perform (eliminate (.ex "x" R) 0 1)).1 = .ok 8 ∧
      s'.lines.length = 9 ∧ s'.Says 8 (.ex "x" R) ∧ s.Says 2 (.imp P R) ∧
      ¬∃ i, (s.perform (eliminate R 0 2)).1 = .ok i := by
  intro R P steps s₀ s s'
  have hsteps : ∀ step ∈ steps, step.WellFormed := by decide
  have hlength : s.lines.length = 3 := by decide +kernel
  have hexistential : s.Says 0 (.ex "x" P) := by decide +kernel
  have hconditional : s.Says 1 (.imp P (.ex "x" R)) := by decide +kernel
  have hfree : s.Says 2 (.imp P R) := by decide +kernel
  have hopen : Opened .truthTable s₀ := .start _
  have hexact := eliminate_exact hopen hsteps
  -- What follows does not depend on what the run computes to.
  clear_value s₀ steps
  obtain ⟨hiff, hadded⟩ := hexact (.ex "x" R) 0 1
  obtain ⟨i, hi⟩ := hiff.2 ⟨by decide, "x", P, hexistential, hconditional, by decide⟩
  obtain ⟨hindex, hlines, hgoal, -⟩ := hadded i hi
  rw [hlength] at hindex hlines
  cases hindex
  refine ⟨hsteps, hi, hlines, hgoal, hfree, fun h => ?_⟩
  obtain ⟨-, x, body, hline, -, hnot⟩ := (hexact R 0 2).1.1 h
  cases Option.some.inj (hexistential.symm.trans hline)
  exact absurd hnot (by decide)

end Session

end Deduction

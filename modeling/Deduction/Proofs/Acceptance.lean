import Deduction.Proofs.Journal
import Deduction.Proofs.Replay

/-!
# No line is refused

A session checks each line when it is added, and a step that comes to a line which does not pass
fails there. With an oracle that answers by a plain function this never happens
(`Session.Primitive.passes`): whatever the check of a line asks for, the step that adds the line has
found out before. The oracle is asked the same question a second time and gives the same answer, and
the lines of a proof that verifies are justified behind other lines too.

That the formulas are well formed plays no part in this. So it holds of every step with any
arguments, after any steps.
-/

namespace Deduction

namespace Session

variable {σ α β : Type} {s t u : Session σ} {answer : Proposition → Bool}

/-- Between `s` and `t` no line was refused. -/
structure Unrefused (s t : Session σ) : Prop where
  oracle : t.oracle = s.oracle
  journal : ∀ index line cause, Event.lineRejected index line cause ∈ t.journal →
    Event.lineRejected index line cause ∈ s.journal

namespace Unrefused

theorem refl (s : Session σ) : s.Unrefused s := ⟨rfl, fun _ _ _ => id⟩

theorem trans (h : s.Unrefused t) (h' : t.Unrefused u) : s.Unrefused u :=
  ⟨h'.oracle.trans h.oracle, fun index line cause hmem =>
    h.journal index line cause (h'.journal index line cause hmem)⟩

theorem of_concat {e : Event} (he : ∀ index line cause, e ≠ .lineRejected index line cause)
    (ho : t.oracle = s.oracle) (hj : t.journal = s.journal ++ [e]) : s.Unrefused t := by
  refine ⟨ho, fun index line cause hmem => ?_⟩
  rw [hj] at hmem
  rcases List.mem_append.1 hmem with hmem | hmem
  · exact hmem
  · exact absurd (List.mem_singleton.1 hmem).symm (he index line cause)

theorem added (s : Session σ) (line : Line) : s.Unrefused (s.added line) :=
  .of_concat (e := .lineAdded s.settings.announce s.lines.length line) nofun rfl rfl

theorem foldl_added : ∀ (lines : List Line) (s : Session σ), s.Unrefused (lines.foldl .added s)
  | [], s => .refl s
  | line :: rest, s => (added s line).trans (foldl_added rest (s.added line))

end Unrefused

/-- The action refuses no line, and does not fail as if it had. -/
def Passes (s : Session σ) (action : Build σ α) : Prop :=
  s.After action (fun _ t => s.Unrefused t) fun e t => s.Unrefused t ∧ ¬e.IsRejection

theorem Passes.unrefused {action : Build σ α} (h : s.Passes action) :
    s.Unrefused (s.perform action).2 :=
  After.always (After.mono h (fun _ _ => id) fun _ _ => And.left)

theorem Passes.ne_rejected {action : Build σ α} (h : s.Passes action) (index : Nat)
    (cause : LineFault) : (s.perform action).1 ≠ .error (.rejected index cause) :=
  fun he => (After.of_error h he).2 trivial

/-! ## What the steps look at in advance -/

theorem passes_throw {e : SessionFault} (he : ¬e.IsRejection) :
    s.Passes (throw e : Build σ α) :=
  ⟨.refl s, he⟩

theorem passes_rejectPlaceholder {f : Formula} {next : Unit → Build σ β}
    (h : s.Passes (next ())) : s.Passes (rejectPlaceholder f >>= next) := by
  rw [Passes, after_rejectPlaceholder]
  split_ifs
  · exact ⟨.refl s, not_false⟩
  · exact h

theorem passes_require {expected found : Formula} {next : Unit → Build σ β}
    (h : expected = found → s.Passes (next ())) : s.Passes (require expected found >>= next) := by
  rw [Passes, after_require]
  split_ifs with he
  · exact h he
  · exact ⟨.refl s, not_false⟩

theorem passes_formulaAt {line : Nat} {next : Formula → Build σ β}
    (h : ∀ f, s.Says line f → s.Passes (next f)) : s.Passes (formulaAt line >>= next) := by
  rw [Passes, after_formulaAt]
  cases hline : s.lines[line]? with
  | some l => exact h l.formula (by simp [Says, hline])
  | none => exact ⟨.refl s, not_false⟩

theorem passes_append (hs : s.oracle = .ofFunction answer) {line : Line}
    (hline : line.Justified (answer · = true) s.assumptions s.lines s.lines.length) :
    s.Passes (append line) := by
  have hcheck : (line.checkM s.oracle s.assumptions s.lines s.lines.length).run s.memory
      = (.ok (), s.memory) := by
    rw [hs, Line.run_checkM_ofFunction, Line.check_eq_ok_iff.2 hline]
  exact ((yields_append hcheck).2 ⟨rfl, .added s line⟩).after

/-! ## Primitive steps -/

/-- What is composed of actions that refuse no line refuses none. -/
theorem Composed.passes {base : Build σ Nat → Prop}
    (hbase : ∀ action, base action → ∀ s : Session σ, s.oracle = .ofFunction answer →
      s.Passes action) {action : Build σ α} (h : Composed base action) :
    ∀ s : Session σ, s.oracle = .ofFunction answer → s.Passes action := by
  induction h with
  | base h => exact hbase _ h
  | pure a => exact fun s _ => .refl s
  | throw he => exact fun s _ => passes_throw he
  | get => exact fun s _ => .refl s
  | note he =>
    refine fun s _ => .of_concat (fun index line cause heq => ?_) rfl rfl
    rw [heq] at he
    exact he
  | freshVariable used => exact fun s _ => ⟨rfl, fun _ _ _ => id⟩
  | @lift _ x hx =>
    intro s _
    obtain ⟨r, hr⟩ := hx s
    change s.Unrefused (x.run s).2
    rw [hr]
    exact ⟨rfl, fun _ _ _ => id⟩
  | bind _ _ ih ihnext =>
    refine fun s hs => after_bind.2 (After.mono (ih s hs) (fun a t ht => ?_) fun _ _ => id)
    exact After.mono (ihnext a t (ht.oracle.trans hs)) (fun _ _ => ht.trans)
      fun _ _ hu => ⟨ht.trans hu.1, hu.2⟩
  | transaction _ ih =>
    refine fun s hs => after_transaction.2 (After.mono (ih s hs) (fun _ _ => id) fun e t ht => ?_)
    have hrolled : ∀ index line cause, Event.rolledBack (t.lines.length - s.lines.length) e
        ≠ .lineRejected index line cause := nofun
    exact ⟨ht.1.trans (.of_concat hrolled rfl rfl), ht.2⟩

section

variable (hs : s.oracle = .ofFunction answer)

include hs

theorem passes_instantiate (goal : Formula) (schema : Schema) (bindings : Bindings) :
    s.Passes (instantiate goal schema bindings) := by
  unfold instantiate
  refine passes_rejectPlaceholder (after_get.2 ?_)
  dsimp only
  split_ifs with hmem
  · cases hinst : schema.instantiate bindings with
    | error cause => exact passes_throw not_false
    | ok expected =>
      refine passes_require fun he => passes_append hs ⟨hmem, ?_⟩
      rw [hinst, he]
  · exact after_bind.2 ⟨.refl s, not_false⟩

theorem passes_tautology (goal : Formula) : s.Passes (tautology goal) := by
  unfold tautology
  refine passes_rejectPlaceholder ((after_lift (run_ask_ofFunction hs _)).2 ?_)
  dsimp only
  split_ifs with hyes
  · exact passes_append hs hyes
  · exact passes_throw not_false

theorem passes_modusPonens (goal : Formula) (antecedent conditional : Nat) :
    s.Passes (modusPonens goal antecedent conditional) := by
  unfold modusPonens
  refine passes_rejectPlaceholder (passes_formulaAt fun premise hpremise =>
    passes_formulaAt fun found hfound => passes_require ?_)
  rintro rfl
  exact passes_append hs ⟨premise, says_iff_states.1 hpremise, says_iff_states.1 hfound⟩

theorem passes_generalize (goal : Formula) (line : Nat) : s.Passes (generalize goal line) := by
  unfold generalize
  refine passes_rejectPlaceholder (passes_formulaAt fun body hbody => ?_)
  cases hq : goal.quantified? .universal with
  | none => exact passes_throw not_false
  | some parts =>
    dsimp only
    split_ifs with hparts
    · refine passes_append hs ⟨parts.1, body, ?_, says_iff_states.1 hbody⟩
      rw [← hparts]
      exact Formula.quantified?_eq_some.1 hq
    · exact passes_throw not_false

theorem passes_inline (goal : Formula) (proof : Proof) : s.Passes (inline goal proof) := by
  have hcomposed : Composed (fun action => ∀ s : Session σ, s.oracle = .ofFunction answer →
      s.Passes action) (inline goal proof : Build σ Nat) := by
    -- What comes before the assumptions are looked at does not matter.
    refine .bind (.note trivial) fun _ => .bind (.rejectPlaceholder goal) fun _ =>
      .bind (.forM (fun line => .rejectPlaceholder line.formula) proof.lines) fun _ =>
      .bind (.require ..) fun _ => .base fun s hs => after_get.2 ?_
    cases hfind : proof.assumptions.toList.find? (· ∉ s.assumptions) with
    | some missing => exact passes_throw not_false
    | none =>
      have hsub : ∀ a ∈ proof.assumptions, a ∈ s.assumptions :=
        OrderedSet.find?_not_mem_eq_none.1 hfind
      refine (after_lift (run_verifyM_ofFunction hs proof)).2 ?_
      cases hverify : proof.verify answer with
      | error cause => exact passes_throw not_false
      | ok _ =>
        have hjust := Proof.justified_shift hverify hsub s.lines
        refine (yields_transaction.2 ((yields_appendAll hs hjust).mono fun i t ht => ?_)).after
        rw [ht.2]
        exact .foldl_added _ s
  exact hcomposed.passes (fun _ => id) s hs

end

theorem Primitive.passes {action : Build σ Nat} (h : Primitive action) (s : Session σ)
    (hs : s.oracle = .ofFunction answer) : s.Passes action := by
  cases h with
  | instantiate goal schema bindings => exact passes_instantiate hs goal schema bindings
  | tautology goal => exact passes_tautology hs goal
  | modusPonens goal antecedent conditional =>
    exact passes_modusPonens hs goal antecedent conditional
  | generalize goal line => exact passes_generalize hs goal line
  | inline goal proof => exact passes_inline hs goal proof

/-! ## Runs -/

theorem passes_build (step : Step) (hs : s.oracle = .ofFunction answer) : s.Passes step.build :=
  (composed_build step).passes (fun _ => Primitive.passes) s hs

theorem unrefused_performAll : ∀ (steps : List Step) {s : Session σ},
    s.oracle = .ofFunction answer → s.Unrefused (s.performAll steps)
  | [], s, _ => .refl s
  | step :: rest, s, hs => by
    have hfirst : s.Unrefused (s.perform step.build).2 := (passes_build step hs).unrefused
    exact hfirst.trans (unrefused_performAll rest (hfirst.oracle.trans hs))

/-- If the oracle answers by a plain function, then after any steps nothing fails because a line
was refused: no step, whatever its arguments are, nor looking at a line or closing. The journal
tells of no such line, and each line that it tells of as added has passed its check on the lines
that were there, at the place where it was added. -/
theorem lines_never_refused {s₀ : Session σ} (hopen : Opened (.ofFunction answer) s₀)
    (steps : List Step) :
    let s := s₀.performAll steps
    (∀ index cause,
      (∀ step : Step, (s.perform step.build).1 ≠ .error (.rejected index cause)) ∧
      (∀ line, (s.perform (formulaAt line)).1 ≠ .error (.rejected index cause)) ∧
      (s.perform close).1 ≠ .error (.rejected index cause)) ∧
    (∀ index line cause, Event.lineRejected index line cause ∉ s.journal) ∧
    ∀ before announced index line after,
      s.journal = before ++ .lineAdded announced index line :: after →
        ∃ lines, Event.replay id before = some lines ∧ index = lines.length ∧
          line.check answer s.assumptions lines index = .ok () := by
  intro s
  have hpast : s₀.Unrefused s := unrefused_performAll steps hopen.oracle
  have hs : s.oracle = .ofFunction answer := hpast.oracle.trans hopen.oracle
  refine ⟨fun index cause => ⟨fun step => ?_, fun line => ?_, ?_⟩, fun index line cause hmem => ?_,
    fun before announced index line after heq => ?_⟩
  · exact (passes_build step hs).ne_rejected index cause
  · exact ((Composed.formulaAt line).passes (fun _ => Primitive.passes) s hs).ne_rejected index
      cause
  · exact (composed_close.passes (fun _ => Primitive.passes) s hs).ne_rejected index cause
  · have hmem₀ := hpast.journal index line cause hmem
    obtain ⟨_, _, _, -, rfl⟩ := hopen.eq_ofSettings
    exact absurd hmem₀ List.not_mem_nil
  · have hfollowed : s.Followed := (extends_performAll steps s₀).followed hopen.followed
    obtain ⟨lines, hlines, hindex, hjust⟩ :=
      hfollowed.vouched before announced index line after heq
    refine ⟨lines, hlines, hindex, Line.check_eq_ok_iff.2 (hjust.imp fun p hp => ?_)⟩
    rw [hs] at hp
    exact Oracle.accepts_ofFunction hp

/-- A proof of `Q` by modus ponens is inlined behind a line whose formula is not well formed, after
a step that fails. The last line of the proof becomes line number 3 and refers to lines 2 and 1. To
generalise the first line over a variable with no name is not refused either. -/
theorem lines_never_refused_of_inlined :
    let P := Formula.holds "P" []
    let Q := Formula.holds "Q" []
    let bad := Formula.holds "" [.var ""]
    let p : Proof := ⟨.ofList [.fixed (.imp P Q), .fixed P], Q,
      [⟨.imp P Q, .assumption (.fixed (.imp P Q)) .empty⟩, ⟨P, .assumption (.fixed P) .empty⟩,
        ⟨Q, .modusPonens 1 0⟩]⟩
    let steps : List Step := [.tautology (.imp bad bad), .modusPonens bad 0 0, .inline Q p]
    let s := (start [.fixed P, .fixed (.imp P Q)]).performAll steps
    ¬bad.WellFormed ∧ s.lines.length = 4 ∧
      (∀ index cause, (s.perform (Step.generalize (.all "" (.imp bad bad)) 0).build).1
        ≠ .error (.rejected index cause)) ∧
      ∃ before after, s.journal = before ++ .lineAdded false 3 ⟨Q, .modusPonens 2 1⟩ :: after ∧
        ∃ lines, Event.replay id before = some lines ∧ 3 = lines.length ∧
          (Line.mk Q (.modusPonens 2 1)).check Proposition.isTautology s.assumptions lines 3
            = .ok () := by
  intro P Q bad p steps s
  have hlength : s.lines.length = 4 := by decide +kernel
  have hmem : Event.lineAdded false 3 ⟨Q, .modusPonens 2 1⟩ ∈ s.journal := by decide +kernel
  obtain ⟨hfails, -, hchecked⟩ := lines_never_refused (Opened.start _) steps
  obtain ⟨before, after, hjournal⟩ := List.append_of_mem hmem
  exact ⟨by decide, hlength, fun index cause => (hfails index cause).1 _, before, after, hjournal,
    hchecked before false 3 _ after hjournal⟩

end Session

end Deduction

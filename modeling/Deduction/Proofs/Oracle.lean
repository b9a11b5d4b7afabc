import Deduction.Proofs.Verification

/-!
# Oracles with a memory

An oracle with a memory has accepted a proposition if it did so once; what it would say now does not
matter. In this sense each line of a proof that verifies with it is justified
(`Proof.justified_of_verifyM`).

A session checks lines and proofs by asking its oracle. The outcome is what the oracle gives on its
memory, which is all that changes (`Session.run_checkM_ask`, `Session.run_verifyM_ask`). If the
oracle answers by a plain function, then nothing changes (`Line.run_checkM_ofFunction`,
`Session.run_verifyM_ofFunction`).
-/

namespace Deduction

variable {σ α : Type} {oracle : Oracle σ}

/-- The oracle says yes to `p`, at least in some state of its memory. -/
def Oracle.Accepts (oracle : Oracle σ) (p : Proposition) : Prop :=
  ∃ memory, ((oracle p).run memory).1 = true

theorem Oracle.accepts_ofFunction {answer : Proposition → Bool} {p : Proposition}
    (h : (ofFunction answer : Oracle σ).Accepts p) : answer p = true := by
  obtain ⟨_, h⟩ := h
  exact h

/-! ## What is justified -/

theorem Line.run_checkM_ofFunction (answer : Proposition → Bool) (assumptions : OrderedSet Schema)
    (lines : List Line) (index : Nat) (line : Line) (memory : σ) :
    (line.checkM (.ofFunction answer : Oracle σ) assumptions lines index).run memory
      = (line.check answer assumptions lines index, memory) :=
  congrArg (StateT.run · memory) (checkM_pure (m := StateM σ) answer assumptions lines index line)

theorem Line.justified_of_checkM {memory : σ} {assumptions : OrderedSet Schema}
    {lines : List Line} {index : Nat} {line : Line}
    (h : ((line.checkM oracle assumptions lines index).run memory).1 = .ok ()) :
    line.Justified oracle.Accepts assumptions lines index := by
  obtain ⟨formula, reason⟩ := line
  cases reason with
  | assumption schema bindings => exact checkAssumption_eq_ok.1 h
  | tautology =>
    refine ⟨memory, ?_⟩
    simp only [checkM, StateT.run_bind] at h
    rcases hask : (oracle formula.skeleton.proposition).run memory with ⟨answer, memory'⟩
    rw [hask] at h
    cases answer with
    | true => rfl
    | false => cases h
  | modusPonens antecedent conditional => exact checkModusPonens_eq_ok.1 h
  | generalization predicate => exact checkGeneralization_eq_ok.1 h

namespace Proof

theorem justified_of_checkLinesM {assumptions : OrderedSet Schema} {lines : List Line} :
    ∀ {pending : List Line} {index : Nat} {memory : σ},
      ((checkLinesM oracle assumptions lines index pending).run memory).1 = .ok () →
        ∀ (i : Nat) (line : Line), pending[i]? = some line →
          line.Justified oracle.Accepts assumptions lines (index + i)
  | line :: pending, index, memory, h, i, line', hi => by
    have hline := @Line.justified_of_checkM σ oracle memory assumptions lines index line
    simp only [checkLinesM, StateT.run_bind] at h
    rcases hcheck : (line.checkM oracle assumptions lines index).run memory with ⟨_ | _, memory'⟩
    · rw [hcheck] at h
      cases h
    · rw [hcheck] at h hline
      cases i with
      | zero =>
        cases hi
        exact hline rfl
      | succ i =>
        rw [show index + (i + 1) = index + 1 + i by omega]
        exact justified_of_checkLinesM h i line' hi

theorem justified_of_verifyM {memory : σ} {p : Proof}
    (h : ((p.verifyM oracle).run memory).1 = .ok ()) :
    p.lines.getLast?.map Line.formula = some p.conclusion ∧
      ∀ (i : Nat) (line : Line), p.lines[i]? = some line →
        line.Justified oracle.Accepts p.assumptions p.lines i := by
  unfold verifyM at h
  cases hlast : p.lines.getLast? with
  | none =>
    rw [hlast] at h
    cases h
  | some last =>
    rw [hlast] at h
    dsimp only at h
    split_ifs at h with hf
    · refine ⟨congrArg some hf, fun i line hi => ?_⟩
      rw [← Nat.zero_add i]
      exact justified_of_checkLinesM h i line hi
    · cases h

end Proof

/-! ## Asking in a session -/

namespace Session

/-- The session after its oracle gave a result and was left with a memory. -/
def withMemory (s : Session σ) (r : α × σ) : α × Session σ := (r.1, { s with memory := r.2 })

theorem run_ask (s : Session σ) (p : Proposition) :
    (ask p).run s = s.withMemory ((s.oracle p).run s.memory) := rfl

theorem run_checkM_ask (s : Session σ) (assumptions : OrderedSet Schema) (lines : List Line)
    (index : Nat) (line : Line) : (line.checkM ask assumptions lines index).run s
      = s.withMemory ((line.checkM s.oracle assumptions lines index).run s.memory) := by
  obtain ⟨formula, reason⟩ := line
  cases reason with
  | tautology =>
    simp only [Line.checkM, StateT.run_bind, run_ask]
    rcases (s.oracle formula.skeleton.proposition).run s.memory with ⟨_ | _, memory⟩
    · rfl
    · rfl
  | _ => rfl

theorem run_checkLinesM_ask (assumptions : OrderedSet Schema) (lines : List Line) :
    ∀ (pending : List Line) (index : Nat) (s : Session σ),
      (Proof.checkLinesM ask assumptions lines index pending).run s = s.withMemory
        ((Proof.checkLinesM s.oracle assumptions lines index pending).run s.memory)
  | [], _, _ => rfl
  | line :: pending, index, s => by
    simp only [Proof.checkLinesM, StateT.run_bind, run_checkM_ask]
    rcases (line.checkM s.oracle assumptions lines index).run s.memory with ⟨_ | _, memory⟩
    · rfl
    · exact run_checkLinesM_ask assumptions lines pending (index + 1) { s with memory := memory }

theorem run_verifyM_ask (s : Session σ) (p : Proof) :
    (p.verifyM ask).run s = s.withMemory ((p.verifyM s.oracle).run s.memory) := by
  unfold Proof.verifyM
  split
  · rfl
  · split_ifs
    · exact run_checkLinesM_ask p.assumptions p.lines p.lines 0 s
    · rfl

section

variable {s : Session σ} {answer : Proposition → Bool} (hs : s.oracle = .ofFunction answer)

include hs

theorem run_ask_ofFunction (p : Proposition) : (ask p).run s = (answer p, s) := by
  rw [run_ask, hs]
  rfl

theorem run_verifyM_ofFunction (p : Proof) : (p.verifyM ask).run s = (p.verify answer, s) := by
  have hpure := Proof.verifyM_pure (m := StateM σ) answer p
  rw [run_verifyM_ask, hs]
  exact congrArg (fun x => s.withMemory (StateT.run x s.memory)) hpure

end

end Session

end Deduction

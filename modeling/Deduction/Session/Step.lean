import Deduction.Session.Consequence
import Deduction.Session.Equality

/-!
# Steps of a session

The steps that a caller can take, as data. A run of a session is a list of them, and a step that
fails does not end the run.
-/

namespace Deduction

inductive Step where
  | assume (goal : Formula)
  | instantiate (goal : Formula) (schema : Schema) (bindings : Bindings)
  | tautology (goal : Formula)
  | modusPonens (goal : Formula) (antecedent conditional : Nat)
  | generalize (goal : Formula) (line : Nat)
  | specialize (goal : Formula) (line : Nat) (term : Term)
  | conclude (goal : Formula) (lines : List Nat)
  | eliminate (goal : Formula) (existential conditional : Nat)
  | instantiateFree (goal : Formula) (line : Nat) (m : Substitution)
  | flip (goal : Formula) (line : Nat)
  | replaceEqual (goal : Formula) (line : Nat) (parametrized : Term)
  | chain (goal : Formula) (lines : List Nat)
  | inline (goal : Formula) (proof : Proof)
deriving DecidableEq

namespace Step

variable {σ : Type}

/-- The formula that the step is to derive. -/
def goal : Step → Formula
  | .assume goal | .instantiate goal .. | .tautology goal | .modusPonens goal .. => goal
  | .generalize goal _ | .specialize goal .. | .conclude goal _ | .eliminate goal .. => goal
  | .instantiateFree goal .. | .flip goal _ | .replaceEqual goal .. | .chain goal _ => goal
  | .inline goal _ => goal

/-- Takes the step, and answers with the number of the line that states its goal. -/
def build : Step → Build σ Nat
  | .assume goal => Session.assume goal
  | .instantiate goal schema bindings => Session.instantiate goal schema bindings
  | .tautology goal => Session.tautology goal
  | .modusPonens goal antecedent conditional => Session.modusPonens goal antecedent conditional
  | .generalize goal line => Session.generalize goal line
  | .specialize goal line term => Session.specialize goal line term
  | .conclude goal lines => Session.conclude goal lines
  | .eliminate goal existential conditional => Session.eliminate goal existential conditional
  | .instantiateFree goal line m => Session.instantiateFree goal line m
  | .flip goal line => Session.flip goal line
  | .replaceEqual goal line parametrized => Session.replaceEqual goal line parametrized
  | .chain goal lines => Session.chain goal lines
  | .inline goal proof => Session.inline goal proof

end Step

namespace Session

variable {σ : Type}

/-- The session after some steps, whether they succeed or not. -/
def performAll (s : Session σ) (steps : List Step) : Session σ :=
  steps.foldl (fun s step => (s.perform step.build).2) s

end Session

end Deduction

import Deduction.Session.Basic

/-!
# Primitive steps

The steps that add one line: an instance of an assumption, a tautology, modus ponens and
generalisation. Each checks in advance what its line needs. Inlining adds the lines of a whole
proof, with the line numbers in them moved behind the lines that are there.
-/

namespace Deduction

namespace Session

variable {σ : Type}

/-- Adds an instance of an assumption or axiom. -/
def instantiate (goal : Formula) (schema : Schema) (bindings : Bindings) : Build σ Nat := do
  rejectPlaceholder goal
  if schema ∉ (← get).assumptions then throw (.unknownAssumption schema)
  match schema.instantiate bindings with
  | .error cause => throw (.instantiation cause)
  | .ok expected =>
    require expected goal
    append ⟨goal, .assumption schema bindings⟩

/-- Adds an assumption without templates. -/
def assume (goal : Formula) : Build σ Nat := instantiate goal (.fixed goal) .empty

/-- Adds a formula whose skeleton is a tautology. -/
def tautology (goal : Formula) : Build σ Nat := do
  rejectPlaceholder goal
  if ← (ask goal.skeleton.proposition : StateM (Session σ) Bool) then append ⟨goal, .tautology⟩
  else throw (.notTautology goal)

/-- Adds what the line `antecedent` implies according to the line `conditional`. -/
def modusPonens (goal : Formula) (antecedent conditional : Nat) : Build σ Nat := do
  rejectPlaceholder goal
  let premise ← formulaAt antecedent
  let found ← formulaAt conditional
  require (.imp premise goal) found
  append ⟨goal, .modusPonens antecedent conditional⟩

/-- Adds what a line says for all values of a variable. -/
def generalize (goal : Formula) (line : Nat) : Build σ Nat := do
  rejectPlaceholder goal
  let body ← formulaAt line
  match goal.quantified? .universal with
  | some (_, f) =>
    if f = body then append ⟨goal, .generalization line⟩ else throw (.notGeneralization goal line)
  | none => throw (.notGeneralization goal line)

/-- Adds lines one after the other, and answers with the number of the last, or with `last` if there
are none. -/
def appendAll (last : Nat) : List Line → Build σ Nat
  | [] => return last
  | line :: rest => do
    let index ← append line
    appendAll index rest

/-- Adds the lines of a proof of `goal`, all of whose assumptions are among those of the session. -/
def inline (goal : Formula) (proof : Proof) : Build σ Nat := do
  note (.inlining goal proof.lines.length)
  rejectPlaceholder goal
  proof.lines.forM fun line => rejectPlaceholder line.formula
  require goal proof.conclusion
  let s ← get
  match proof.assumptions.toList.find? (· ∉ s.assumptions) with
  | some missing => throw (.unknownAssumption missing)
  | none =>
    match ← (proof.verifyM ask : StateM (Session σ) _) with
    | .error cause => throw (.invalidProof cause)
    | .ok () =>
      let offset := s.lines.length
      transaction (appendAll offset (proof.lines.map (·.shift offset)))

end Session

end Deduction

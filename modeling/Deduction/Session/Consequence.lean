import Deduction.Session.Specialization

/-!
# Consequences of several lines

What follows from some lines by propositional logic is derived from one tautology, the implication
of the goal by all of them, and as many uses of modus ponens. A consequence of the body of an
existential line, in which its variable is not free, follows from the line itself.
-/

namespace Deduction

namespace Session

variable {σ : Type}

/-- From the line `current`, which says that the premises imply `goal` one after the other, derives
`goal` by the lines of the premises. -/
def discharge (goal : Formula) : (current : Nat) → (premises : List (Nat × Formula)) → Build σ Nat
  | current, [] => return current
  | current, (line, _) :: rest => do
    let current ← modusPonens (.implications (rest.map Prod.snd) goal) line current
    discharge goal current rest

/-- Derives what follows from the formulas of some lines by propositional logic alone. -/
def conclude (goal : Formula) (lines : List Nat) : Build σ Nat := do
  note (.concluding goal lines)
  rejectPlaceholder goal
  let premises := (← lines.reverse.mapM formulaAt).reverse
  transaction do
    let current ← tautology (.implications premises goal)
    discharge goal current (lines.zip premises)

/-- From lines `Ex[P]` and `(P->goal)` derives the goal, in which `x` is not free. -/
def eliminate (goal : Formula) (existential conditional : Nat) : Build σ Nat := do
  note (.eliminating goal existential conditional)
  rejectPlaceholder goal
  let (x, body) ← quantifiedAt .existential existential
  let found ← formulaAt conditional
  require (.imp body goal) found
  if x ∈ goal.freeVars then throw (.freeVariable x goal)
  let generalized := Formula.all x (.imp body goal)
  let parametrized ← parametrize body x
  let bindings := Table.ofList
    [("R", Binding.formula parametrized), ("Q", .formula goal), ("x", .var x)]
  transaction do
    let universal ← generalize generalized conditional
    let simplification ← instantiate (.imp (.conj generalized (.ex x body)) goal)
      LogicalAxiom.existentialSimplification.schema bindings
    conclude goal [existential, universal, simplification]

end Session

end Deduction

import Deduction.Session.Primitive

/-!
# Specialisation

From a formula that holds for all values of a variable follows the formula with any term for it.
The step is an instance of the axiom of universal instantiation and modus ponens. The axiom's
relation is bound to the body of the formula, with the placeholder for the variable.

The free variables of a line can be given terms too, all at once: the line is generalised over each
and specialised again.
-/

namespace Deduction

namespace Session

variable {σ : Type}

/-- The body with the placeholder for the free occurrences of a variable. -/
def parametrize (body : Formula) (x : String) : Build σ Formula :=
  liftCapture (body.substitute (.single x (.const placeholder)) [])

/-- From a line `Ax[P]` derives `P` with the term for `x`. -/
def specialize (goal : Formula) (line : Nat) (term : Term) : Build σ Nat := do
  note (.specializing goal line term)
  rejectPlaceholder goal
  rejectPlaceholderTerm term
  let (x, body) ← quantifiedAt .universal line
  let expected ← liftCapture (body.substitute (.single x term) [])
  require expected goal
  let parametrized ← parametrize body x
  let bindings := Table.ofList
    [("R", Binding.formula parametrized), ("x", .var x), ("c", .term term)]
  transaction do
    let conditional ← instantiate (.imp (.all x body) goal)
      LogicalAxiom.universalInstantiation.schema bindings
    modusPonens goal line conditional

/-- Generalises a line over `x` and specialises it to a term; answers with the new formula and its
line. -/
def generalizeAndSpecialize (formula : Formula) (line : Nat) (x : String) (term : Term) :
    Build σ (Formula × Nat) := do
  let result ← liftCapture (formula.substitute (.single x term) [])
  let universal ← generalize (.all x formula) line
  let index ← specialize result universal term
  return (result, index)

/-- A fresh variable for each entry, none of which is used or another entry's. -/
def freshFor (used : List String) :
    (entries : List (String × Term)) → Build σ (List (String × String × Term))
  | [] => return []
  | (x, term) :: rest => do
    let fresh ← freshVariable used
    let more ← freshFor (fresh :: used) rest
    return (x, fresh, term) :: more

/-- From a line derives its formula with terms for some of its free variables. All variables are
renamed to fresh ones before the first term is put in, so that no replacement meets a variable that
still waits for its own. -/
def instantiateFree (goal : Formula) (line : Nat) (m : Substitution) : Build σ Nat := do
  note (.instantiatingFree goal line)
  rejectPlaceholder goal
  m.entries.forM fun (_, term) => rejectPlaceholderTerm term
  match m.keys.find? (!isVar ·) with
  | some name => throw (.notVariable name)
  | none =>
    let source ← formulaAt line
    let expected ← liftCapture (source.substitute m [])
    require expected goal
    if m.isEmpty then return line
    let used := source.vars ++ goal.vars
      ++ m.entries.flatMap fun (x, term) => x :: term.vars
    let renamings ← freshFor used m.entries
    transaction do
      let (formula, line) ← renamings.foldlM
        (fun (f, l) (x, fresh, _) => generalizeAndSpecialize f l x (.var fresh)) (source, line)
      let (_, line) ← renamings.foldlM
        (fun (f, l) (_, fresh, term) => generalizeAndSpecialize f l fresh term) (formula, line)
      return line

end Session

end Deduction

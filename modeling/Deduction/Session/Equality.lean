import Deduction.Session.Primitive

/-!
# Derived rules for equality

Symmetry, replacement inside a term and transitivity, each expanded into instances of the two
equality axioms and modus ponens.
-/

namespace Deduction

namespace Session

variable {σ : Type}

/-- Adds `t=t`. -/
def reflexivity (t : Term) : Build σ Nat :=
  instantiate (.equality t t) LogicalAxiom.reflexivity.schema (.single "c" (.term t))

/-- Adds `(a=b->tail)`, where `tail` says that what `body` says of `a` it says of `b`. The body has
the placeholder for the term that it speaks of. -/
def meaningOfEquality (a b : Term) (body tail : Formula) : Build σ Nat :=
  instantiate (.imp (.equality a b) tail) LogicalAxiom.meaningOfEquality.schema
    (Table.ofList [("R", .formula body), ("c", .term a), ("d", .term b)])

/-- From a line `a=b` derives `b=a`. -/
def flip (goal : Formula) (line : Nat) : Build σ Nat := do
  note (.flipping goal line)
  rejectPlaceholder goal
  let (a, b) ← equalityAt line
  require (.equality b a) goal
  let tail := Formula.imp (.equality a a) goal
  transaction do
    let meaning ← meaningOfEquality a b (.equality (.const placeholder) a) tail
    let implication ← modusPonens tail line meaning
    let reflexive ← reflexivity a
    modusPonens goal reflexive implication

/-- From a line `a=b` derives the equality of a term with `a` and with `b` for the placeholder. -/
def replaceEqual (goal : Formula) (line : Nat) (parametrized : Term) : Build σ Nat := do
  note (.replacingEqual goal line parametrized)
  rejectPlaceholder goal
  let (a, b) ← equalityAt line
  let left ← liftCapture (parametrized.substitute (.single placeholder a) [])
  let right ← liftCapture (parametrized.substitute (.single placeholder b) [])
  require (.equality left right) goal
  let tail := Formula.imp (.equality left left) goal
  transaction do
    let meaning ← meaningOfEquality a b (.equality left parametrized) tail
    let implication ← modusPonens tail line meaning
    let reflexive ← reflexivity left
    modusPonens goal reflexive implication

/-- From lines `a=b` and `b=c` derives `a=c`. -/
def chainStep (left : Nat) (a b c : Term) (right : Nat) : Build σ Nat := do
  let flipped ← flip (.equality b a) left
  let tail := Formula.imp (.equality b c) (.equality a c)
  let meaning ← meaningOfEquality b a (.equality (.const placeholder) c) tail
  let implication ← modusPonens tail flipped meaning
  modusPonens (.equality a c) right implication

/-- The first of some equalities, each with its line, whose left side is not the right side before
it: its line and the two sides. The first right side is given. -/
def chainBreak? : (right : Term) → List (Nat × Term × Term) → Option (Nat × Term × Term)
  | _, [] => none
  | right, (line, l, r) :: rest =>
    if right = l then chainBreak? r rest else some (line, right, l)

/-- Extends the equality of `a` at the line `left` along a chain. -/
def chainAll (a : Term) : (left : Nat) → List (Nat × Term × Term) → Build σ Nat
  | left, [] => return left
  | left, (line, b, c) :: rest => do
    let left ← chainStep left a b c line
    chainAll a left rest

/-- From lines `a=b`, `b=c` and so on up to `y=z` derives `a=z`. -/
def chain (goal : Formula) (lines : List Nat) : Build σ Nat := do
  note (.chaining goal lines)
  rejectPlaceholder goal
  match lines with
  | first :: second :: rest =>
    let (a, b) ← equalityAt first
    let links ← (second :: rest).mapM fun line => do return (line, ← equalityAt line)
    match chainBreak? b links with
    | some (line, expected, found) => throw (.chainBreak line expected found)
    | none =>
      let last := (links.getLast?.map (·.2.2)).getD b
      require (.equality a last) goal
      transaction (chainAll a first links)
  | _ => throw (.chainTooShort lines.length)

end Session

end Deduction

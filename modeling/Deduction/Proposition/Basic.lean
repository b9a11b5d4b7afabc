import Deduction.Expression.Text

/-!
# Propositions

Propositional formulas over numbered atoms. An assignment is the list of the truth values of the
atoms in the order of their numbers, and an atom beyond its end counts as false.

A proposition is a tautology when it is true under every assignment to its atoms. The assignments
of one length are run through in the order of binary counting, the first atom being the lowest
digit, from all false to all true. There are `2 ^ n` of length `n`, which bounds the run.

The number of an atom is a machine word, and one more than the largest word is none. What comes out
in its place depends on how arithmetic was set up (`Overflow`), and so do the count of the atoms and
the verdict of the truth table that has so many columns (`Proposition.count?`,
`Proposition.tautology?`). Both are as if there were no words while the exact count stays below the
bounds.
-/

namespace Deduction

inductive Proposition where
  | atom (index : Nat)
  | neg (body : Proposition)
  | binary (op : Connective) (left right : Proposition)
deriving DecidableEq

/-- The truth function of a connective. -/
def Connective.eval : Connective → Bool → Bool → Bool
  | .and, a, b => a && b
  | .or, a, b => a || b
  | .implies, a, b => !a || b

namespace Proposition

/-- One more than the largest number of an atom. -/
def atomCount : Proposition → Nat
  | .atom i => i + 1
  | .neg p => p.atomCount
  | .binary _ p q => max p.atomCount q.atomCount

def eval (assignment : List Bool) : Proposition → Bool
  | .atom i => assignment.getD i false
  | .neg p => !p.eval assignment
  | .binary op p q => op.eval (p.eval assignment) (q.eval assignment)

def text : Proposition → String
  | .atom i => "p" ++ toString i
  | .neg p => "~" ++ p.text
  | .binary op p q => "(" ++ p.text ++ String.ofList op.chars ++ q.text ++ ")"

end Proposition

/-! ## Truth tables -/

/-- The assignment that follows in the order of binary counting, if it was not the last. -/
def nextAssignment? : List Bool → Option (List Bool)
  | [] => none
  | false :: rest => some (true :: rest)
  | true :: rest => (nextAssignment? rest).map (false :: ·)

namespace Proposition

/-- The proposition is true under `assignment` and those that follow it, `count` of them in all or
as many as there are. -/
def holdsFrom (p : Proposition) : (count : Nat) → (assignment : List Bool) → Bool
  | 0, _ => true
  | count + 1, assignment =>
    p.eval assignment &&
      match nextAssignment? assignment with
      | some following => p.holdsFrom count following
      | none => true

def isTautology (p : Proposition) : Bool :=
  p.holdsFrom (Nat.pow 2 p.atomCount) (List.replicate p.atomCount false)

end Proposition

/-! ## Counting in machine words -/

/-- How many machine words there are. -/
def wordCount : Nat := Nat.pow 2 64

/-- The length of the longest list that can be asked for. -/
def maxLength : Nat := Nat.pow 2 63 - 1

/-- What becomes of a sum that is not a word: it is wrapped around, or there is no result. -/
inductive Overflow where
  | wraps
  | fails
deriving DecidableEq

/-- One more than the word `n`. -/
def Overflow.succ? (overflow : Overflow) (n : Nat) : Option Nat :=
  if n + 1 < wordCount then some (n + 1)
  else match overflow with
    | .wraps => some ((n + 1) % wordCount)
    | .fails => none

namespace Proposition

/-- The number of atoms as a word: `atomCount`, unless an atom has the largest word for its
number. -/
def count? (overflow : Overflow) : Proposition → Option Nat
  | .atom i => overflow.succ? i
  | .neg p => p.count? overflow
  | .binary _ p q => do return max (← p.count? overflow) (← q.count? overflow)

/-- The verdict of the truth table that has as many columns as the word says. There is none if there
is no such word, or no list of that length. -/
def tautology? (overflow : Overflow) (p : Proposition) : Option Bool := do
  let count ← p.count? overflow
  if count ≤ maxLength then
    some (p.holdsFrom (Nat.pow 2 count) (List.replicate count false))
  else none

end Proposition

end Deduction

import Deduction.Expression.Term

/-!
# Formulas

A formula is an equality of terms, a relation symbol applied to terms, a negation, two formulas
joined by a connective, or a quantified formula. As for terms, the names in a formula are listed
where they stand, with repetition.
-/

namespace Deduction

inductive Connective where
  | and
  | or
  | implies
deriving DecidableEq

inductive Quantifier where
  | universal
  | existential
deriving DecidableEq

inductive Formula where
  | equality (left right : Term)
  | relation (symbol : Symbol) (args : List Term)
  | neg (body : Formula)
  | binary (op : Connective) (left right : Formula)
  | quantified (q : Quantifier) (x : String) (body : Formula)
deriving DecidableEq

namespace Formula

def conj (left right : Formula) : Formula := .binary .and left right

def disj (left right : Formula) : Formula := .binary .or left right

def imp (left right : Formula) : Formula := .binary .implies left right

def all (x : String) (body : Formula) : Formula := .quantified .universal x body

def ex (x : String) (body : Formula) : Formula := .quantified .existential x body

/-- The relation symbol `name` applied to `args`, with the arity that fits. -/
def holds (name : String) (args : List Term) : Formula := .relation ⟨name, args.length⟩ args

/-- `premises` implying `goal` one after the other, the first outermost. -/
def implications (premises : List Formula) (goal : Formula) : Formula :=
  premises.foldr imp goal

def constants : Formula → List String
  | .equality l r => l.constants ++ r.constants
  | .relation _ args => Term.constantsOfList args
  | .neg f => f.constants
  | .binary _ l r => l.constants ++ r.constants
  | .quantified _ _ f => f.constants

/-- All variables, those of the quantifiers included. -/
def vars : Formula → List String
  | .equality l r => l.vars ++ r.vars
  | .relation _ args => Term.varsOfList args
  | .neg f => f.vars
  | .binary _ l r => l.vars ++ r.vars
  | .quantified _ x f => x :: f.vars

def freeVars : Formula → List String
  | .equality l r => l.vars ++ r.vars
  | .relation _ args => Term.varsOfList args
  | .neg f => f.freeVars
  | .binary _ l r => l.freeVars ++ r.freeVars
  | .quantified _ x f => f.freeVars.filter (· ≠ x)

def functions : Formula → List Symbol
  | .equality l r => l.functions ++ r.functions
  | .relation _ args => Term.functionsOfList args
  | .neg f => f.functions
  | .binary _ l r => l.functions ++ r.functions
  | .quantified _ _ f => f.functions

/-- The relation symbols. Equality is none of them. -/
def relations : Formula → List Symbol
  | .equality .. => []
  | .relation s _ => [s]
  | .neg f => f.relations
  | .binary _ l r => l.relations ++ r.relations
  | .quantified _ _ f => f.relations

/-- No variable is free. -/
def isClosed (f : Formula) : Bool := f.freeVars.isEmpty

def equality? : Formula → Option (Term × Term)
  | .equality l r => some (l, r)
  | _ => none

def implication? : Formula → Option (Formula × Formula)
  | .binary .implies l r => some (l, r)
  | _ => none

/-- The variable and the body of a formula that begins with the quantifier `q`. -/
def quantified? (q : Quantifier) : Formula → Option (String × Formula)
  | .quantified q' x f => if q' = q then some (x, f) else none
  | _ => none

end Formula

end Deduction

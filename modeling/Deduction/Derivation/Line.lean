import Deduction.OrderedSet
import Deduction.Proposition.Skeleton
import Deduction.Schema.Instance

/-!
# Lines of a proof

A line states a formula and gives the reason for it: it is an instance of an assumption, its
skeleton is a tautology, or it follows from earlier lines by modus ponens or by generalisation.
Lines refer to each other by their number.

A line that rests on a tautology puts one question to an oracle, which may be any function or keep
a memory of its own. So a line is checked in a monad (`checkM`), and for an oracle that is a plain
function, without one (`check`). Both agree (`checkM_pure`).
-/

namespace Deduction

inductive Reason where
  | assumption (schema : Schema) (bindings : Bindings)
  | tautology
  | modusPonens (antecedent conditional : Nat)
  | generalization (predicate : Nat)
deriving DecidableEq

structure Line where
  formula : Formula
  reason : Reason
deriving DecidableEq

namespace Reason

/-- The short name of the rule. -/
def rule : Reason → String
  | .assumption .. => "Assumption"
  | .tautology => "Tautology"
  | .modusPonens .. => "MP"
  | .generalization .. => "UG"

/-- The lines that the reason refers to. -/
def premises : Reason → List Nat
  | .modusPonens a c => [a, c]
  | .generalization p => [p]
  | _ => []

/-- The reason with all lines that it refers to moved by `offset`. -/
def shift (offset : Nat) : Reason → Reason
  | .modusPonens a c => .modusPonens (a + offset) (c + offset)
  | .generalization p => .generalization (p + offset)
  | reason => reason

def text : Reason → String
  | .assumption schema bindings =>
    if bindings.isEmpty then "Assumption " ++ schema.text
    else "Assumption " ++ schema.text ++ " instantiated with " ++ bindings.text
  | .tautology => "Tautology"
  | .modusPonens a c => "MP from lines " ++ toString a ++ " and " ++ toString c
  | .generalization p => "UG of line " ++ toString p

end Reason

/-- Why a line is not justified. -/
inductive LineFault where
  | unknownAssumption (schema : Schema)
  | instantiation (cause : InstantiationFault)
  | instanceMismatch (expected found : Formula)
  | notTautology (formula : Formula)
  | forwardReference (line reference : Nat)
  | notConditional (conditional : Nat) (expected : Formula)
  | notGeneralization (formula : Formula) (predicate : Nat)
deriving DecidableEq

def LineFault.message : LineFault → String
  | .unknownAssumption schema => "assumption " ++ schema.text ++ " is not in the assumption set"
  | .instantiation cause => "cannot instantiate assumption: " ++ cause.message
  | .instanceMismatch expected found =>
    "instance " ++ found.text ++ " does not match instantiated assumption " ++ expected.text
  | .notTautology formula => formula.text ++ " is not a tautology"
  | .forwardReference line reference =>
    "line " ++ toString line ++ " references line " ++ toString reference
      ++ ", which is not earlier"
  | .notConditional conditional expected =>
    "line " ++ toString conditional ++ " is not " ++ expected.text
  | .notGeneralization formula predicate =>
    formula.text ++ " is not a universal generalization of line " ++ toString predicate

namespace Line

def shift (offset : Nat) (line : Line) : Line := ⟨line.formula, line.reason.shift offset⟩

def text (line : Line) : String := line.formula.text ++ "    (" ++ line.reason.text ++ ")"

/-- The formula of the line `reference`, which has to stand before the line `index`. -/
def earlier (lines : List Line) (index reference : Nat) : Except LineFault Formula :=
  match lines[reference]? with
  | some line =>
    if reference < index then .ok line.formula else .error (.forwardReference index reference)
  | none => .error (.forwardReference index reference)

/-- The formula is the instance of the schema, which has to be assumed. -/
def checkAssumption (assumptions : OrderedSet Schema) (schema : Schema) (bindings : Bindings)
    (formula : Formula) : Except LineFault Unit :=
  if schema ∉ assumptions then .error (.unknownAssumption schema)
  else
    match schema.instantiate bindings with
    | .error cause => .error (.instantiation cause)
    | .ok expected =>
      if expected = formula then .ok () else .error (.instanceMismatch expected formula)

/-- The line `conditional` says that the line `antecedent` implies the formula. -/
def checkModusPonens (lines : List Line) (index antecedent conditional : Nat) (formula : Formula) :
    Except LineFault Unit := do
  let premise ← earlier lines index antecedent
  let found ← earlier lines index conditional
  if found = .imp premise formula then return ()
  else throw (.notConditional conditional (.imp premise formula))

/-- The formula says for all values of some variable what the line `predicate` says. -/
def checkGeneralization (lines : List Line) (index predicate : Nat) (formula : Formula) :
    Except LineFault Unit := do
  let body ← earlier lines index predicate
  match formula.quantified? .universal with
  | some (_, f) =>
    if f = body then return () else throw (.notGeneralization formula predicate)
  | none => throw (.notGeneralization formula predicate)

/-- Checks that the line is justified as line number `index` of `lines`, with `ask` for the
oracle. -/
def checkM {m : Type → Type} [Monad m] (ask : Proposition → m Bool)
    (assumptions : OrderedSet Schema) (lines : List Line) (index : Nat) (line : Line) :
    m (Except LineFault Unit) :=
  match line.reason with
  | .assumption schema bindings =>
    return checkAssumption assumptions schema bindings line.formula
  | .tautology => do
    if ← ask line.formula.skeleton.proposition then return .ok ()
    else return .error (.notTautology line.formula)
  | .modusPonens antecedent conditional =>
    return checkModusPonens lines index antecedent conditional line.formula
  | .generalization predicate =>
    return checkGeneralization lines index predicate line.formula

def check (oracle : Proposition → Bool) (assumptions : OrderedSet Schema) (lines : List Line)
    (index : Nat) (line : Line) : Except LineFault Unit :=
  Id.run (line.checkM (fun p => pure (oracle p)) assumptions lines index)

theorem checkM_pure {m : Type → Type} [Monad m] [LawfulMonad m] (oracle : Proposition → Bool)
    (assumptions : OrderedSet Schema) (lines : List Line) (index : Nat) (line : Line) :
    line.checkM (m := m) (fun p => pure (oracle p)) assumptions lines index
      = pure (line.check oracle assumptions lines index) := by
  obtain ⟨formula, reason⟩ := line
  cases reason with
  | tautology =>
    simp only [check, checkM, pure_bind]
    split <;> rfl
  | _ => rfl

end Line

end Deduction

import Deduction.Derivation.Proof

/-!
# Faults of a session

Why a step of a session is refused. A step says in advance all that can be wrong with it; a line
that is refused all the same (`rejected`) means that the oracle changed its mind.
-/

namespace Deduction

/-- What a line has to state for a rule to apply to it. -/
inductive Shape where
  | equality
  | universal
  | existential
deriving DecidableEq

def Shape.phrase : Shape → String
  | .equality => "an equality"
  | .universal => "universally quantified"
  | .existential => "existentially quantified"

inductive SessionFault where
  | lineOutOfRange (line length : Nat)
  | unknownAssumption (schema : Schema)
  | mismatch (expected found : Formula)
  | unexpectedShape (line : Nat) (expected : Shape) (formula : Formula)
  | notGeneralization (formula : Formula) (line : Nat)
  | notTautology (formula : Formula)
  | freeVariable (name : String) (formula : Formula)
  | notVariable (name : String)
  | chainTooShort (length : Nat)
  | chainBreak (line : Nat) (expected found : Term)
  | emptyProof
  | placeholder (text : String)
  | invalidStem (stem : String)
  | capture (cause : Capture)
  | instantiation (cause : InstantiationFault)
  | invalidProof (cause : ProofFault)
  | rejected (index : Nat) (cause : LineFault)
deriving DecidableEq

def SessionFault.message : SessionFault → String
  | .lineOutOfRange line length =>
    "line " ++ toString line ++ " does not exist (the proof has " ++ toString length ++ " lines)"
  | .unknownAssumption schema => schema.text ++ " is not in the assumption set"
  | .mismatch expected found => "expected " ++ expected.text ++ ", found " ++ found.text
  | .unexpectedShape line expected formula =>
    "line " ++ toString line ++ " is not " ++ expected.phrase ++ ": " ++ formula.text
  | .notGeneralization formula line =>
    formula.text ++ " is not a universal generalization of line " ++ toString line
  | .notTautology formula => formula.text ++ " is not a tautology"
  | .freeVariable name formula => "variable " ++ name ++ " is free in " ++ formula.text
  | .notVariable name => "'" ++ name ++ "' is not a variable name"
  | .chainTooShort length =>
    "equality chain needs at least two lines, got " ++ toString length
  | .chainBreak line expected found =>
    "equality chain breaks at line " ++ toString line ++ ": expected left side " ++ expected.text
      ++ ", found " ++ found.text
  | .emptyProof => "proof has no lines"
  | .placeholder text => "reserved placeholder '_' appears in " ++ text
  | .invalidStem stem => "invalid fresh variable prefix '" ++ stem ++ "'"
  | .capture cause => cause.message
  | .instantiation cause => cause.message
  | .invalidProof cause => "sub-proof does not verify: " ++ cause.message
  | .rejected index cause => "line " ++ toString index ++ " rejected: " ++ cause.message

end Deduction

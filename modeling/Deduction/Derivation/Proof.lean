import Deduction.Derivation.Line

/-!
# Proofs

A proof is a list of lines that ends with its conclusion, over a set of assumptions that holds the
axioms which it uses. It is verified line by line, and the first fault is reported. Like a line, a
proof is verified in a monad (`verifyM`) or with a plain function for an oracle (`verify`), and
both agree (`verifyM_pure`).
-/

namespace Deduction

structure Proof where
  assumptions : OrderedSet Schema
  conclusion : Formula
  lines : List Line
deriving DecidableEq

/-- Why a proof does not verify. -/
inductive ProofFault where
  | empty
  | conclusionMismatch (conclusion last : Formula)
  | invalidLine (index : Nat) (cause : LineFault)
deriving DecidableEq

def ProofFault.message : ProofFault → String
  | .empty => "proof has no lines"
  | .conclusionMismatch conclusion last =>
    "conclusion " ++ conclusion.text ++ " differs from the last line " ++ last.text
  | .invalidLine index cause => "line " ++ toString index ++ " is invalid: " ++ cause.message

namespace Proof

/-- Checks the lines from number `index` on, `pending`, which are the end of `lines`. -/
def checkLinesM {m : Type → Type} [Monad m] (ask : Proposition → m Bool)
    (assumptions : OrderedSet Schema) (lines : List Line) :
    (index : Nat) → (pending : List Line) → m (Except ProofFault Unit)
  | _, [] => return .ok ()
  | index, line :: pending => do
    match ← line.checkM ask assumptions lines index with
    | .ok () => checkLinesM ask assumptions lines (index + 1) pending
    | .error cause => return .error (.invalidLine index cause)

def verifyM {m : Type → Type} [Monad m] (ask : Proposition → m Bool) (p : Proof) :
    m (Except ProofFault Unit) :=
  match p.lines.getLast? with
  | none => return .error .empty
  | some last =>
    if last.formula = p.conclusion then checkLinesM ask p.assumptions p.lines 0 p.lines
    else return .error (.conclusionMismatch p.conclusion last.formula)

def verify (oracle : Proposition → Bool) (p : Proof) : Except ProofFault Unit :=
  Id.run (p.verifyM fun q => pure (oracle q))

/-- The proof verifies, with tautologies decided by truth tables. -/
def isValid (p : Proof) : Bool := (p.verify Proposition.isTautology).isOk

theorem checkLinesM_pure {m : Type → Type} [Monad m] [LawfulMonad m]
    (oracle : Proposition → Bool) (assumptions : OrderedSet Schema) (lines : List Line) :
    ∀ (pending : List Line) (index : Nat),
      checkLinesM (m := m) (fun q => pure (oracle q)) assumptions lines index pending
        = pure (Id.run (checkLinesM (fun q => pure (oracle q)) assumptions lines index pending))
  | [], _ => rfl
  | line :: pending, index => by
    have ih := checkLinesM_pure (m := m) oracle assumptions lines pending (index + 1)
    simp only [checkLinesM, Line.checkM_pure, pure_bind]
    split
    · exact ih
    · rfl

theorem verifyM_pure {m : Type → Type} [Monad m] [LawfulMonad m] (oracle : Proposition → Bool)
    (p : Proof) : p.verifyM (m := m) (fun q => pure (oracle q)) = pure (p.verify oracle) := by
  simp only [verify, verifyM]
  split
  · rfl
  · split
    · exact checkLinesM_pure oracle p.assumptions p.lines p.lines 0
    · rfl

/-- A number, led by blanks to a width of three. -/
def lineNumber (n : Nat) : String :=
  let digits := toString n
  String.ofList (List.replicate (3 - digits.length) ' ') ++ digits

def text (p : Proof) : String :=
  "Proof of " ++ p.conclusion.text ++ " from assumptions/axioms:\n"
    ++ String.join (p.assumptions.toList.map fun s => "  " ++ s.text ++ "\n")
    ++ "Lines:\n"
    ++ String.join (p.lines.zipIdx.map fun (line, i) => lineNumber i ++ ") " ++ line.text ++ "\n")
    ++ "QED"

end Proof

end Deduction

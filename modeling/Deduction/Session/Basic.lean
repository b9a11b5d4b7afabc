import Deduction.Schema.Logical
import Deduction.Session.Event

/-!
# Sessions

A session builds a proof line by line. It starts from the logical axioms and the assumptions of its
caller, and each line is checked before it is added. A step of several lines is a transaction: if it
fails, the lines that it added are taken back, while names that it took stay taken and the oracle
keeps its memory (`perform_transaction`).

The source of fresh names never gives the same one twice: a fixed stem followed by the numbers from
one on. Among one more number than there are names to avoid, one gives a name outside them, so the
search for a fresh name is bounded.
-/

namespace Deduction

/-! ## Fresh names -/

structure Fresh where
  stem : String
  /-- How many names were taken. -/
  taken : Nat
deriving DecidableEq

namespace Fresh

def ofStem (stem : String) : Fresh := ⟨stem, 0⟩

/-- The name with the given number. -/
def nameAt (f : Fresh) (n : Nat) : String := f.stem ++ toString n

def next (f : Fresh) : String × Fresh := (f.nameAt (f.taken + 1), ⟨f.stem, f.taken + 1⟩)

/-- The next `count` names. -/
def take (f : Fresh) : (count : Nat) → List String × Fresh
  | 0 => ([], f)
  | count + 1 =>
    let (name, f) := f.next
    let (names, f) := f.take count
    (name :: names, f)

/-- The first of the next names that is not in `used`, or the last of them if `tries` more are all
used. -/
def search (used : List String) : (tries : Nat) → Fresh → String × Fresh
  | 0, f => f.next
  | tries + 1, f =>
    let (name, f) := f.next
    if name ∈ used then search used tries f else (name, f)

/-- The next name that is not in `used`. -/
def nextAvoiding (f : Fresh) (used : List String) : String × Fresh := search used used.length f

end Fresh

/-! ## The state and its actions -/

/-- Says of a proposition whether it is a tautology, and may remember what it was asked. -/
abbrev Oracle (σ : Type) := Proposition → StateM σ Bool

namespace Oracle

/-- The oracle that answers by a plain function. -/
def ofFunction {σ : Type} (answer : Proposition → Bool) : Oracle σ := fun p => pure (answer p)

def truthTable {σ : Type} : Oracle σ := ofFunction Proposition.isTautology

end Oracle

structure Settings where
  /-- What fresh variables begin with. -/
  stem : String := "z"
  /-- Lines that are added are announced, rather than only noted. -/
  announce : Bool := false
deriving DecidableEq

structure Session (σ : Type) where
  assumptions : OrderedSet Schema
  settings : Settings
  oracle : Oracle σ
  memory : σ
  lines : List Line
  fresh : Fresh
  journal : List Event

/-- A step of a session. What a failed step did to the session is not lost with its result. -/
abbrev Build (σ : Type) := ExceptT SessionFault (StateM (Session σ))

namespace Session

variable {σ : Type}

/-- The result of an action, and the session after it. -/
def perform {α : Type} (s : Session σ) (action : Build σ α) : Except SessionFault α × Session σ :=
  action.run.run s

theorem perform_bind {α β : Type} (s : Session σ) (action : Build σ α) (next : α → Build σ β) :
    s.perform (action >>= next) = match s.perform action with
      | (.ok a, s') => s'.perform (next a)
      | (.error e, s') => (.error e, s') := by
  simp only [perform, ExceptT.run_bind, StateT.run_bind]
  rcases action.run.run s with ⟨r | r, s'⟩ <;> rfl

theorem perform_tryCatch {α : Type} (s : Session σ) (action : Build σ α)
    (handle : SessionFault → Build σ α) :
    s.perform (tryCatch action handle) = match s.perform action with
      | (.ok a, s') => (.ok a, s')
      | (.error e, s') => s'.perform (handle e) := by
  simp only [perform, ExceptT.run_tryCatch, StateT.run_bind]
  rcases action.run.run s with ⟨r | r, s'⟩ <;> rfl

def ofSettings (assumptions : List Schema) (settings : Settings) (oracle : Oracle σ) (memory : σ) :
    Session σ where
  assumptions := (OrderedSet.ofList (LogicalAxiom.all.map LogicalAxiom.schema)).insertMany
    assumptions
  settings := settings
  oracle := oracle
  memory := memory
  lines := []
  fresh := .ofStem settings.stem
  journal := []

/-- A session with the usual settings, which decides tautologies by truth tables. -/
def start (assumptions : List Schema) : Session Unit :=
  ofSettings assumptions {} .truthTable ()

/-- A session with given settings and a given oracle. Fresh variables have to begin with the name
of a variable, so that they are variables themselves. -/
def startWith (assumptions : List Schema) (settings : Settings) (oracle : Oracle σ) (memory : σ) :
    Except SessionFault (Session σ) :=
  if isVar settings.stem then .ok (ofSettings assumptions settings oracle memory)
  else .error (.invalidStem settings.stem)

/-- Puts a question to the oracle of the session. -/
def ask (p : Proposition) : StateM (Session σ) Bool := do
  let s ← get
  let (answer, memory) := (s.oracle p).run s.memory
  set { s with memory := memory }
  return answer

def note (e : Event) : Build σ Unit :=
  modify fun s => { s with journal := s.journal ++ [e] }

/-- Adds a line at the end, if it is justified there, and answers with its number. -/
def append (line : Line) : Build σ Nat := do
  let s ← get
  let index := s.lines.length
  match ← (line.checkM ask s.assumptions s.lines index : StateM (Session σ) _) with
  | .error cause =>
    note (.lineRejected index line cause)
    throw (.rejected index cause)
  | .ok () =>
    note (.lineAdded s.settings.announce index line)
    modify fun s => { s with lines := s.lines ++ [line] }
    return index

/-- A step that leaves no lines behind if it fails. -/
def transaction (step : Build σ Nat) : Build σ Nat := do
  let mark := (← get).lines.length
  try step
  catch cause =>
    note (.rolledBack ((← get).lines.length - mark) cause)
    modify fun s => { s with lines := s.lines.take mark }
    throw cause

theorem perform_transaction (s : Session σ) (step : Build σ Nat) :
    s.perform (transaction step) = match s.perform step with
      | (.ok index, s') => (.ok index, s')
      | (.error e, s') => (.error e, { s' with
          journal := s'.journal ++ [.rolledBack (s'.lines.length - s.lines.length) e]
          lines := s'.lines.take s.lines.length }) := by
  rw [transaction, perform_bind]
  change s.perform (tryCatch _ _) = _
  rw [perform_tryCatch]
  rcases s.perform step with ⟨r | r, s'⟩ <;> rfl

/-- The formula of a line that exists. -/
def formulaAt (line : Nat) : Build σ Formula := do
  let lines := (← get).lines
  match lines[line]? with
  | some l => return l.formula
  | none => throw (.lineOutOfRange line lines.length)

/-- The sides of the equality that a line states. -/
def equalityAt (line : Nat) : Build σ (Term × Term) := do
  let f ← formulaAt line
  match f.equality? with
  | some sides => return sides
  | none => throw (.unexpectedShape line .equality f)

/-- The variable and the body of the quantified formula that a line states. -/
def quantifiedAt (q : Quantifier) (line : Nat) : Build σ (String × Formula) := do
  let f ← formulaAt line
  match f.quantified? q with
  | some parts => return parts
  | none =>
    let shape := match q with
      | .universal => Shape.universal
      | .existential => Shape.existential
    throw (.unexpectedShape line shape f)

/-- A formula of the caller may not mention the placeholder. -/
def rejectPlaceholder (f : Formula) : Build σ Unit :=
  if placeholder ∈ f.constants then throw (.placeholder f.text) else return ()

def rejectPlaceholderTerm (t : Term) : Build σ Unit :=
  if placeholder ∈ t.constants then throw (.placeholder t.text) else return ()

def require (expected found : Formula) : Build σ Unit :=
  if expected = found then return () else throw (.mismatch expected found)

/-- The result of a substitution, whose failure is the step's. -/
def liftCapture {α : Type} (result : Except Capture α) : Build σ α :=
  match result with
  | .ok a => return a
  | .error cause => throw (.capture cause)

/-- The next fresh variable that is none of `used`. -/
def freshVariable (used : List String) : Build σ String :=
  modifyGet fun s =>
    let (name, fresh) := s.fresh.nextAvoiding used
    (name, { s with fresh := fresh })

/-- The proof that the lines make up, of the formula of the last one. -/
def close : Build σ Proof := do
  let s ← get
  match s.lines.getLast? with
  | none => throw .emptyProof
  | some last =>
    note (.closed s.lines.length last.formula)
    return ⟨s.assumptions, last.formula, s.lines⟩

end Session

end Deduction

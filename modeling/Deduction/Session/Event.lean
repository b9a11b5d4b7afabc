import Deduction.Session.Fault

/-!
# The journal of a session

A session notes each line that it adds or refuses, each time it takes lines back, and the beginning
of each composite step. The lines of a session can be followed from its journal alone: a line that
was added is put at the end, and a step that failed takes off the lines that it had added. The log
has the title and the details of each event as texts, from which the texts of the lines can still be
followed.
-/

namespace Deduction

inductive Event where
  /-- A line was added, and the session announces its lines or does not. -/
  | lineAdded (announced : Bool) (index : Nat) (line : Line)
  | lineRejected (index : Nat) (line : Line) (cause : LineFault)
  /-- A step failed and its lines, so many, were taken back. -/
  | rolledBack (dropped : Nat) (cause : SessionFault)
  | closed (lines : Nat) (conclusion : Formula)
  | inlining (conclusion : Formula) (lines : Nat)
  | specializing (goal : Formula) (line : Nat) (term : Term)
  | concluding (goal : Formula) (lines : List Nat)
  | eliminating (goal : Formula) (existential conditional : Nat)
  | instantiatingFree (goal : Formula) (line : Nat)
  | flipping (goal : Formula) (line : Nat)
  | replacingEqual (goal : Formula) (line : Nat) (parametrized : Term)
  | chaining (goal : Formula) (lines : List Nat)
deriving DecidableEq

namespace Event

inductive Level where
  | trace
  | debug
  | info
  | warn
deriving DecidableEq

def Level.text : Level → String
  | .trace => "TRACE"
  | .debug => "DEBUG"
  | .info => "INFO"
  | .warn => "WARN"

def level : Event → Level
  | .lineAdded announced .. => if announced then .info else .debug
  | .lineRejected .. => .warn
  | .rolledBack .. | .closed .. => .debug
  | .inlining .. | .specializing .. | .concluding .. | .eliminating .. | .instantiatingFree ..
  | .flipping .. | .replacingEqual .. | .chaining .. => .trace

def title : Event → String
  | .lineAdded .. => "line added"
  | .lineRejected .. => "line rejected"
  | .rolledBack .. => "rolling back"
  | .closed .. => "qed"
  | .inlining .. => "add_proof"
  | .specializing .. => "universal instantiation"
  | .concluding .. => "tautological implication"
  | .eliminating .. => "existential derivation"
  | .instantiatingFree .. => "free instantiation"
  | .flipping .. => "flipped equality"
  | .replacingEqual .. => "substituted equality"
  | .chaining .. => "chained equality"

/-- Line numbers in square brackets, parted by commas and blanks. -/
def numbers (lines : List Nat) : String :=
  "[" ++ String.intercalate ", " (lines.map toString) ++ "]"

def details : Event → List (String × String)
  | .lineAdded _ index line => [("index", toString index), ("line", line.text)]
  | .lineRejected index line cause =>
    [("index", toString index), ("line", line.text), ("error", cause.message)]
  | .rolledBack dropped cause => [("dropped", toString dropped), ("error", cause.message)]
  | .closed lines conclusion => [("lines", toString lines), ("conclusion", conclusion.text)]
  | .inlining conclusion lines => [("conclusion", conclusion.text), ("lines", toString lines)]
  | .specializing goal line term =>
    [("goal", goal.text), ("line", toString line), ("term", term.text)]
  | .concluding goal lines => [("goal", goal.text), ("lines", numbers lines)]
  | .eliminating goal existential conditional =>
    [("goal", goal.text), ("existential", toString existential),
      ("conditional", toString conditional)]
  | .instantiatingFree goal line => [("goal", goal.text), ("line", toString line)]
  | .flipping goal line => [("goal", goal.text), ("line", toString line)]
  | .replacingEqual goal line parametrized =>
    [("goal", goal.text), ("line", toString line), ("parametrized", parametrized.text)]
  | .chaining goal lines => [("goal", goal.text), ("lines", numbers lines)]

end Event

/-- What the log has of an event. -/
structure LogEntry where
  level : Event.Level
  title : String
  details : List (String × String)
deriving DecidableEq

/-- The entry on one line: its level, its title and its details. -/
def LogEntry.text (e : LogEntry) : String :=
  e.level.text ++ " " ++ e.title
    ++ String.join (e.details.map fun (key, value) => " " ++ key ++ "=" ++ value)

namespace Event

def entry (e : Event) : LogEntry := ⟨e.level, e.title, e.details⟩

def text (e : Event) : String := e.entry.text

end Event

end Deduction

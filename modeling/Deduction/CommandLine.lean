import Deduction.Directory
import Deduction.Document.Conversion

/-!
# The command line

The command verifies a proof that is stored as a JSON document. Its first argument names the file,
or is `-` for standard input, and options follow. It ends with status 0 if the proof verifies, with
1 if it does not, and with 2 if the arguments make no sense or no proof can be loaded.

`Outcome.ofRun` is the whole command, run in a directory that is given as a value.
-/

namespace Deduction

/-- What a run of the command writes, and the status that it ends with. -/
structure Outcome where
  status : Nat
  stdout : String
  stderr : String
deriving DecidableEq

/-- Where the text of a proof comes from. -/
inductive Source where
  | standardInput
  | file (path : String)
deriving DecidableEq

namespace Outcome

def refused (message : String) : Outcome := ⟨2, "", message⟩

def program : String := "verify_proof"

def usage : String :=
  "Usage: " ++ program ++ " <proof.json | -> [options]\n\nOptions:\n"
    ++ "  --print    Print the proof before verifying it\n"

end Outcome

/-- What the arguments ask for. -/
structure Invocation where
  path : String
  /-- The proof is printed before it is verified. -/
  printProof : Bool
deriving DecidableEq

namespace Invocation

def ofArguments : List String → Except Outcome Invocation
  | [] => .error (.refused Outcome.usage)
  | path :: options =>
    match options.find? (· ≠ "--print") with
    | some unknown => .error (.refused ("Unknown option: " ++ unknown ++ "\n" ++ Outcome.usage))
    | none => .ok ⟨path, !options.isEmpty⟩

def source (i : Invocation) : Source :=
  if i.path = "-" then .standardInput else .file i.path

/-- The outcome for the text that was read from the source, if it could be read. -/
def report (i : Invocation) (content : Except ReadFault String) : Outcome :=
  match content with
  | .error e => .refused ("Cannot read " ++ i.path ++ ": " ++ e.message ++ "\n")
  | .ok text =>
    match Proof.load text with
    | .error e => .refused ("Cannot load proof: " ++ e.message ++ "\n")
    | .ok proof =>
      let printed := if i.printProof then proof.text ++ "\n\n" else ""
      match proof.verify Proposition.isTautology with
      | .error e => ⟨1, printed ++ "Invalid proof: " ++ e.message ++ "\n", ""⟩
      | .ok () =>
        ⟨0, printed ++ "Valid proof of " ++ proof.conclusion.text ++ " ("
          ++ toString proof.lines.length ++ " lines)\n", ""⟩

/-- The text of the source, for a run in a directory with `stdin` for standard input. -/
def content (i : Invocation) (directory : Directory) (stdin : ByteArray) :
    Except ReadFault String :=
  match i.source with
  | .standardInput => decodeText stdin
  | .file path => directory.read path >>= decodeText

end Invocation

/-- The outcome of a run with the given arguments. -/
def Outcome.ofRun (directory : Directory) (stdin : ByteArray) (arguments : List String) : Outcome :=
  match Invocation.ofArguments arguments with
  | .error outcome => outcome
  | .ok invocation => invocation.report (invocation.content directory stdin)

end Deduction

import Deduction.CommandLine

/-!
# The program

Reads what the arguments name and writes the outcome.
-/

open Deduction

/-- Everything that is left on a stream. -/
partial def readRest (stream : IO.FS.Stream) (done : ByteArray) : IO ByteArray := do
  let chunk ← stream.read 65536
  if chunk.isEmpty then return done else readRest stream (done ++ chunk)

/-- The number of an error, which some operations report with its sign changed. -/
def errorNumber (code : UInt32) : UInt32 := if code < 0x80000000 then code else 0 - code

/-- The fault that an error of the file system stands for. -/
def Deduction.ReadFault.ofError : IO.Error → ReadFault
  | .noFileOrDirectory .. => .notFound
  | .inappropriateType _ code _ => if errorNumber code = 20 then .notDirectory else .isDirectory
  | .invalidArgument _ code details =>
    if errorNumber code = 36 then .nameTooLong else .other details
  | e => .other (toString e)

def readSource : Source → IO (Except ReadFault String)
  | .standardInput => do return decodeText (← readRest (← IO.getStdin) .empty)
  | .file path => do
    try return decodeText (← IO.FS.readBinFile path)
    catch e => return .error (.ofError e)

def Deduction.Outcome.write (o : Outcome) : IO UInt32 := do
  (← IO.getStdout).putStr o.stdout
  (← IO.getStderr).putStr o.stderr
  return o.status.toUInt32

def main (args : List String) : IO UInt32 := do
  match Invocation.ofArguments args with
  | .error outcome => outcome.write
  | .ok invocation => (invocation.report (← readSource invocation.source)).write

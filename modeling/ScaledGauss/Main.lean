import ScaledGauss.CommandLine.Run

/-!
# The command line

Reads the file that the arguments name, if they name one, runs, and prints.
-/

namespace ScaledGauss

/-- Why a file is not read, in the terms of the library. A folder is opened like a file and
fails only when it is read, at which point the path is no longer known; a path that goes on
after a file fails at once. -/
def PathError.ofSystem : IO.Error → PathError
  | .inappropriateType none _ _ => .endsAtFolder
  | .inappropriateType (some _) _ _ => .throughFile
  | .invalidArgument _ _ _ => .tooLong
  | _ => .missing

/-- The contents of a file, or why it is not read. -/
def CommandLine.contents (path : String) : IO (Except PathError ByteArray) := do
  try
    return .ok (← IO.FS.readBinFile path)
  catch e =>
    return .error (.ofSystem e)

end ScaledGauss

open ScaledGauss

/-- The command line. -/
def main (arguments : List String) : IO UInt32 := do
  let file ← match (CommandLine.Options.ofArguments? arguments).bind (·.input) with
    | some path => CommandLine.contents path
    | none => pure (.error .missing)
  let outcome := CommandLine.run (fun _ => file) arguments
  match outcome with
  | .printed output => IO.print output
  | .failed failure => IO.eprint failure.text
  | .rejected => IO.eprintln "error: the arguments are not accepted"
  return UInt32.ofNat outcome.exitCode

import ScaledGauss.CommandLine.Output
import ScaledGauss.Decimal.Shortest
import ScaledGauss.Stored.File

/-!
# Failures of the command line

A run fails for one of a few causes. The text of a failure is one line; where the
failure happened on behalf of something else, the line gives the context, and the
chain of its causes stands below.

## Main definitions

– `ScaledGauss.CommandLine.Failure`: the causes;
– `ScaledGauss.CommandLine.Failure.text`: the text of a failure.
-/

namespace ScaledGauss

namespace CommandLine

/-- **Why a run fails.** -/
inductive Failure
  /-- Neither a file nor both lists of numbers are given. -/
  | nothingStated
  /-- The matrix does not have as many entries as the right-hand side asks for. -/
  | wrongCount (entries unknowns : Nat)
  /-- A number that is to be a raw value is none. -/
  | notRaw (x : Binary64)
  /-- The file is not loaded. -/
  | unloaded (path : String) (cause : LoadError)
  /-- The configuration is refused, with its overrides. -/
  | misconfigured (cause : Error)
  /-- The problem is not solved. -/
  | unsolved (cause : Error)
deriving DecidableEq

/-- Causes, numbered if there are several. -/
def causeLines : List String → List String
  | [cause] => ["    " ++ cause]
  | causes => causes.zipIdx.map fun (cause, i) => s!"    {i}: {cause}"

namespace Failure

/-- The first line: what failed, or on behalf of what. -/
def headline : Failure → String
  | .nothingStated => "either --input or both --matrix and --rhs must be provided"
  | .wrongCount entries n =>
    let expected := n * n
    s!"--matrix has {entries} entries but --rhs has {n}; expected {expected} coefficients"
  | .notRaw x => x.text ++ " is not a 32-bit raw integer"
  | .unloaded path _ => "failed to load " ++ path
  | .misconfigured cause => cause.message
  | .unsolved _ => "solve failed"

/-- The causes below the first line, the outermost first. -/
def causes : Failure → List String
  | .nothingStated | .wrongCount _ _ | .notRaw _ | .misconfigured _ => []
  | .unloaded _ cause => cause.causes
  | .unsolved cause => [cause.message]

/-- **The text of a failure.** -/
def text (f : Failure) : String :=
  let headline := "Error: " ++ f.headline
  if f.causes = [] then unlines [headline]
  else unlines ([headline, "", "Caused by:"] ++ causeLines f.causes)

/-- Whether the run left the machine, rather than failed on its input. -/
def isFault : Failure → Bool
  | .misconfigured (.fault _) | .unsolved (.fault _) => true
  | _ => false

end Failure

end CommandLine

end ScaledGauss

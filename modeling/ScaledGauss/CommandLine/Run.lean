import ScaledGauss.CommandLine.Failure
import ScaledGauss.CommandLine.Options

/-!
# Running the command line

A run takes its problem from a file or from its arguments, overrides the format,
solves and prints. The order of these decides which of two faults is reported: the
problem is obtained first, then the format is overridden and the configuration
checked, and only then are reals converted and the system solved.

## Main definitions

– `ScaledGauss.CommandLine.statedProblem`: the problem in the arguments;
– `ScaledGauss.CommandLine.override`: the format with the overrides applied;
– `ScaledGauss.CommandLine.compute`: the problem as configured, and its report;
– `ScaledGauss.CommandLine.run`, `ScaledGauss.CommandLine.runIn`: the whole run, ending
  in an `ScaledGauss.CommandLine.Outcome`.
-/

namespace ScaledGauss

namespace CommandLine

/-! ### The problem -/

/-- The raw value that a real is, if it is one. -/
def rawOf? (x : Binary64) : Option Scaled :=
  match x.denote with
  | .finite negative significand exponent =>
    let scale := pow2 (-exponent).toNat
    if significand % scale = 0 then
      let magnitude := significand / scale * pow2 exponent.toNat
      Scaled.ofInt? (if negative then -(magnitude : Int) else magnitude)
    else none
  | .infinite _ | .undefined => none

/-- Reals that all are raw values; the first that is none is the failure. -/
def rawList (values : List Binary64) : Except Failure (List Scaled) :=
  values.mapM fun x =>
    match rawOf? x with
    | some a => .ok a
    | none => .error (.notRaw x)

/-- **The problem in the arguments**, as many unknowns as the right-hand side has
numbers. -/
def statedProblem (o : Options) : Except Failure Problem :=
  let n := o.rhs.length
  if o.matrix = [] ∨ o.rhs = [] then .error .nothingStated
  else if o.matrix.length ≠ n * n then .error (.wrongCount o.matrix.length n)
  else if o.raw then do
    let matrix ← rawList o.matrix
    let rhs ← rawList o.rhs
    return ⟨.ofDimension n, .raw matrix, .raw rhs⟩
  else
    return ⟨.ofDimension n, .real o.matrix, .real o.rhs⟩

/-- **The problem of a run**: from its file, if one is named, otherwise from its
arguments. -/
def problemOf (files : String → Except PathError ByteArray) (o : Options) :
    Except Failure Problem :=
  match o.input with
  | some path => (Problem.load (files path)).mapError (.unloaded path)
  | none => statedProblem o

/-! ### The overrides -/

/-- **The format with the overrides applied**, the scale first. -/
def override (o : Options) (f : Format) : Except Error Format := do
  let f ← match o.fracBits with
    | some fracBits => f.withFracBits fracBits
    | none => .ok f
  let f := match o.rounding with
    | some rounding => f.withRounding rounding
    | none => f
  return match o.overflow with
    | some overflow => f.withOverflow overflow
    | none => f

/-- The problem with its format overridden, and its configuration checked. -/
def configure (o : Options) (p : Problem) : Except Error Problem := do
  let format ← override o p.config.format
  let config := { p.config with format := format }
  config.validate
  return { p with config := config }

/-! ### The run -/

/-- **The problem as configured, and its report.** -/
def compute (files : String → Except PathError ByteArray) (o : Options) :
    Except Failure (Problem × Report) := do
  let stated ← problemOf files o
  let p ← (configure o stated).mapError .misconfigured
  let report ← p.solve.outcome.mapError .unsolved
  return (p, report)

/-- What is printed about a report. -/
def render (o : Options) (f : Format) (r : Report) : String :=
  if o.json then r.document.pretty ++ "\n"
  else unlines ((if o.showSteps then stepLines f r else []) ++ solutionLines f r)

/-- **How a run ends.** -/
inductive Outcome
  /-- With output. -/
  | printed (output : String)
  /-- With a failure. -/
  | failed (failure : Failure)
  /-- Before it begins, the arguments being refused. -/
  | rejected
deriving DecidableEq

/-- The exit code. A request for help, which would be granted with 0, is left out: like
any argument that does not exist, `--help` and `-h` end with 2. -/
def Outcome.exitCode : Outcome → Nat
  | .printed _ => 0
  | .failed failure => if failure.isFault then 101 else 1
  | .rejected => 2

/-- **The run** on a list of arguments, given what each path leads to. -/
def run (files : String → Except PathError ByteArray) (arguments : List String) : Outcome :=
  match Options.ofArguments? arguments with
  | none => .rejected
  | some o =>
    match compute files o with
    | .ok (p, report) => .printed (render o p.config.format report)
    | .error failure => .failed failure

/-- The run in a folder. -/
def runIn (place : Place) (arguments : List String) : Outcome := run place.read arguments

end CommandLine

end ScaledGauss

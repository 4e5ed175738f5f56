import ScaledGauss.Decimal.Literal
import ScaledGauss.Format

/-!
# The arguments of the command line

Arguments are first taken apart into flags and settings, then collected into a set
of options. An argument list that is not of the right form has no options; why is
not recorded, since every such list is answered alike. A request for help is left out:
`--help` and `-h` count as arguments that do not exist.

A setting is written `--name value` or `--name=value`. A value that begins with a
hyphen is taken for an argument of its own, unless it is a lone hyphen, or is
attached by an equality sign, or belongs to one of the two lists of numbers.

## Main definitions

– `ScaledGauss.CommandLine.Flag`, `ScaledGauss.CommandLine.Setting`,
  `ScaledGauss.CommandLine.arguments?`: flags and settings;
– `ScaledGauss.CommandLine.Options`, `ScaledGauss.CommandLine.Options.ofArguments?`:
  the options.
-/

namespace ScaledGauss

namespace CommandLine

/-! ### Flags and settings -/

/-- The flags. -/
inductive Flag
  | raw
  | showSteps
  | json
deriving DecidableEq

/-- The flag of a given name. -/
def Flag.ofName? (name : String) : Option Flag :=
  if name = "--raw" then some .raw
  else if name = "--show-steps" then some .showSteps
  else if name = "--json" then some .json
  else none

/-- The settings. -/
inductive Setting
  | input
  | matrix
  | rhs
  | fracBits
  | rounding
  | overflow
deriving DecidableEq

/-- The setting of a given name. -/
def Setting.ofName? (name : String) : Option Setting :=
  if name = "--input" then some .input
  else if name = "--matrix" then some .matrix
  else if name = "--rhs" then some .rhs
  else if name = "--frac-bits" then some .fracBits
  else if name = "--rounding" then some .rounding
  else if name = "--overflow" then some .overflow
  else none

/-- Whether a detached value may begin with a hyphen: only numbers may. -/
def Setting.allowsHyphen : Setting → Bool
  | .matrix | .rhs => true
  | .input | .fracBits | .rounding | .overflow => false

/-- A flag, or a setting with its value. -/
inductive Argument
  | flag (flag : Flag)
  | setting (setting : Setting) (value : String)
deriving DecidableEq

/-- The part of an argument before its first equality sign, and the part after it if
there is one. -/
def splitAssignment (argument : String) : String × Option String :=
  let cs := argument.toList
  let name := String.ofList (cs.takeWhile (· ≠ '='))
  match cs.dropWhile (· ≠ '=') with
  | _ :: value => (name, some (String.ofList value))
  | [] => (name, none)

/-- Whether a detached value would be taken for an argument. -/
def looksLikeArgument (value : String) : Bool :=
  match value.toList with
  | '-' :: _ :: _ => true
  | _ => false

/-- **Flags and settings** in order, if the list is made of them. Two hyphens alone
may end the list. -/
def arguments? : List String → Option (List Argument)
  | [] => some []
  | ["--"] => some []
  | argument :: rest =>
    match splitAssignment argument with
    | (name, some value) =>
      match Setting.ofName? name with
      | some setting => (arguments? rest).map (.setting setting value :: ·)
      | none => none
    | (name, none) =>
      match Flag.ofName? name, Setting.ofName? name, rest with
      | some flag, _, rest => (arguments? rest).map (.flag flag :: ·)
      | none, some setting, value :: rest =>
        if setting.allowsHyphen ∨ ¬looksLikeArgument value then
          (arguments? rest).map (.setting setting value :: ·)
        else none
      | _, _, _ => none

/-! ### Options -/

/-- **The options** of a run. -/
structure Options where
  /-- The file that states the problem. -/
  input : Option String := none
  /-- The matrix, row by row. -/
  matrix : List Binary64 := []
  /-- The right-hand side. -/
  rhs : List Binary64 := []
  /-- Whether the numbers are raw values. -/
  raw : Bool := false
  /-- The number of fractional bits to use instead. -/
  fracBits : Option Nat := none
  /-- The rounding to use instead. -/
  rounding : Option Rounding := none
  /-- The overflow policy to use instead. -/
  overflow : Option Overflow := none
  /-- Whether to show the steps of the elimination. -/
  showSteps : Bool := false
  /-- Whether to print the report as JSON. -/
  json : Bool := false
deriving DecidableEq

/-- Numbers separated by commas. -/
def numbers? (value : String) : Option (List Binary64) :=
  (value.splitOn ",").mapM Binary64.ofLiteral?

/-- A number below `2 ^ 32`: an optional sign and digits. -/
def natural? (value : String) : Option Nat :=
  let (negative, rest) := splitSign value.toList
  match splitDigits rest with
  | (d :: digits, []) =>
    let n := digitsValue 0 (d :: digits)
    if n < pow2 32 ∧ (negative → n = 0) then some n else none
  | _ => none

/-- The value for a place that must still be free. -/
def vacant {α : Type} (place : Option α) (value : Option α) : Option (Option α) :=
  match place, value with
  | none, some a => some (some a)
  | _, _ => none

/-- The flag for a place where it has not been given yet. -/
def raise (place : Bool) : Option Bool := if place then none else some true

namespace Options

/-- One flag or setting more. The lists of numbers may be given in parts; everything
else may be given once. -/
def add (o : Options) : Argument → Option Options
  | .flag .raw => do return { o with raw := ← raise o.raw }
  | .flag .showSteps => do return { o with showSteps := ← raise o.showSteps }
  | .flag .json => do return { o with json := ← raise o.json }
  | .setting .input path => do
    return { o with input := ← vacant o.input (if path = "" then none else some path) }
  | .setting .matrix value => do return { o with matrix := o.matrix ++ (← numbers? value) }
  | .setting .rhs value => do return { o with rhs := o.rhs ++ (← numbers? value) }
  | .setting .fracBits value => do
    return { o with fracBits := ← vacant o.fracBits (natural? value) }
  | .setting .rounding value => do
    return { o with rounding := ← vacant o.rounding (Rounding.ofName? value) }
  | .setting .overflow value => do
    return { o with overflow := ← vacant o.overflow (Overflow.ofName? value) }

/-- A file and numbers exclude each other. -/
def consistent (o : Options) : Bool := o.input.isNone ∨ (o.matrix = [] ∧ o.rhs = [])

/-- **The options of an argument list**, if it has any. -/
def ofArguments? (arguments : List String) : Option Options := do
  let o ← (← arguments? arguments).foldlM add {}
  if o.consistent then some o else none

end Options

end CommandLine

end ScaledGauss

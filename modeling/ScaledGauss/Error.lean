/-!
# Why a computation fails

Every failure of this library is a value of `ScaledGauss.Error`, named for its
cause. The wording that a user reads is produced in one place,
`ScaledGauss.Error.message`.

A `ScaledGauss.Fault` is different in kind: it says that the computation itself
left the machine it is described on – a word too narrow for an intermediate
result, a shift by too many places, an index outside a table. A fault is not
reported to the user as a mistake in the input; it abandons the run.

## Main definitions

– `ScaledGauss.Fault`: the ways to leave the machine;
– `ScaledGauss.Error`: the causes of failure;
– `ScaledGauss.Error.message`: the text of each cause.
-/

namespace ScaledGauss

/-- The largest number of fractional bits a format may have: with thirty of them
the value one is still a 32-bit integer, and a numerator widened by thirty places
is still a 64-bit integer. -/
def maxFracBits : Nat := 30

/-- The parts of a system whose size is compared with its dimension. -/
inductive Part
  /-- The matrix, given as one row-major sequence. -/
  | flattenedMatrix
  /-- The columns of a matrix that has to be square. -/
  | matrixColumns
  /-- The right-hand side. -/
  | rightHandSide
deriving DecidableEq

/-- What a part is called in a message. -/
def Part.name : Part → String
  | .flattenedMatrix => "flattened matrix"
  | .matrixColumns => "matrix columns"
  | .rightHandSide => "right-hand side"

/-- **Leaving the machine**: an event that abandons a run. -/
inductive Fault
  /-- An intermediate result does not fit its word. -/
  | wordOverflow
  /-- A shift by at least as many places as the word has bits. -/
  | shiftTooWide
  /-- An integer division by zero. -/
  | zeroDivisor
  /-- An index outside its table. -/
  | indexOutOfRange
deriving DecidableEq

/-- **The causes of failure.** -/
inductive Error
  /-- A quotient with divisor zero, under a policy that does not clamp. -/
  | divisionByZero
  /-- A result outside the 32-bit range, under a policy that reports it; the
  operation is named, and an arithmetic of the caller's own may name others. -/
  | overflow (operation : String)
  /-- A real number that is infinite or not a number. -/
  | notFinite
  /-- More fractional bits than `ScaledGauss.maxFracBits`. -/
  | unsupportedScale (fracBits : Nat)
  /-- A system without equations. -/
  | emptySystem
  /-- A part of a system whose size is not the one its dimension asks for. -/
  | dimensionMismatch (part : Part) (expected got : Nat)
  /-- The run was abandoned. -/
  | fault (f : Fault)
deriving DecidableEq

/-- The text of a fault. -/
def Fault.message : Fault → String
  | .wordOverflow => "intermediate result does not fit its word"
  | .shiftTooWide => "shift amount is not below the word size"
  | .zeroDivisor => "integer division by zero"
  | .indexOutOfRange => "index out of range"

/-- The text of a failure. -/
def Error.message : Error → String
  | .divisionByZero => "Division by zero"
  | .overflow operation => s!"Fixed-point overflow in {operation}"
  | .notFinite => "Value is not a finite real number"
  | .unsupportedScale fracBits =>
    s!"Unsupported number of fractional bits: {fracBits} (maximum {maxFracBits})"
  | .emptySystem => "System dimension must be at least 1"
  | .dimensionMismatch part expected got =>
    s!"Dimension mismatch in {part.name}: expected {expected}, got {got}"
  | .fault f => f.message

end ScaledGauss

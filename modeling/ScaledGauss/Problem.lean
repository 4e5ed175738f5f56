import ScaledGauss.Format.Real
import ScaledGauss.Solve

/-!
# Problems as they are stated

A problem states its matrix and its right-hand side either as reals, which are
converted into the configured format, or as raw values, which are taken as they
are.

## Main definitions

– `ScaledGauss.Values`: numbers in one of the two forms, with their conversion
  `ScaledGauss.Values.scaled`;
– `ScaledGauss.Problem`: a configuration with a matrix and a right-hand side, and
  its solution `ScaledGauss.Problem.solve`.
-/

namespace ScaledGauss

/-- **Numbers as they are stated.** -/
inductive Values
  /-- Reals, to be converted. -/
  | real (values : List Binary64)
  /-- Raw values, to be used as they are. -/
  | raw (values : List Scaled)
deriving DecidableEq

namespace Values

/-- How many numbers there are. -/
def length : Values → Nat
  | .real values => values.length
  | .raw values => values.length

/-- The raw values in a format; the first real that has none decides the error. -/
def scaled (f : Format) : Values → Except Error (List Scaled)
  | .real values => values.mapM f.ofReal
  | .raw values => .ok values

end Values

/-- **A system in flat form**, in raw values. -/
structure FlatSystem where
  /-- The matrix, row by row. -/
  matrix : List Scaled
  /-- The right-hand side. -/
  rhs : List Scaled
deriving DecidableEq

/-- **A problem**: a configuration, a matrix and a right-hand side. -/
structure Problem where
  /-- The configuration. -/
  config : Config
  /-- The matrix, row by row. -/
  matrix : Values
  /-- The right-hand side. -/
  rhs : Values
deriving DecidableEq

namespace Problem

/-- The system in raw values, the matrix being converted first. -/
def flat (p : Problem) : Except Error FlatSystem := do
  let matrix ← p.matrix.scaled p.config.format
  let rhs ← p.rhs.scaled p.config.format
  return ⟨matrix, rhs⟩

/-- **The solution of a problem**: conversion, then the solve. -/
def solve (p : Problem) : Logged Report := do
  let system ← .quiet p.flat
  p.config.solve system.matrix.toArray system.rhs.toArray

end Problem

end ScaledGauss

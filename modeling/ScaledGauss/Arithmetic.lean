import ScaledGauss.Error
import ScaledGauss.Scaled

/-!
# Arithmetics

The solver does not know how its numbers are computed. It names an operation and
two operands, and an arithmetic answers with a value or with an error; besides the
four operations it supplies the two constants that an identity matrix is made of.
`ScaledGauss.Format.arithmetic` is the arithmetic of a fixed-point format.

## Main definitions

– `ScaledGauss.Op`: the four operations;
– `ScaledGauss.Arithmetic`: the answers to them, with one and zero.
-/

namespace ScaledGauss

/-- The operations that are asked of an arithmetic. -/
inductive Op
  | multiply
  | divide
  | add
  | subtract
deriving DecidableEq

/-- What an operation is called. -/
def Op.name : Op → String
  | .multiply => "multiply"
  | .divide => "divide"
  | .add => "add"
  | .subtract => "subtract"

/-- **An arithmetic**: an answer to every operation on every pair of operands. -/
structure Arithmetic where
  /-- The answer to an operation. -/
  apply : Op → Scaled → Scaled → Except Error Scaled
  /-- The value on the diagonal of an identity matrix. -/
  one : Scaled
  /-- The value off the diagonal, and the empty sum. -/
  zero : Scaled

end ScaledGauss

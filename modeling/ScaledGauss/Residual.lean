import ScaledGauss.Grid

/-!
# The residual of a triangular system

How far a vector is from solving an upper-triangular system, in raw units: the
largest difference, over the rows, between the exact sum of the row and the
right-hand side. A row is summed in a 128-bit word without any rounding and divided
by the scale once, toward negative infinity, so the measure does not depend on the
policies of a format. The result is cut at the greatest signed 64-bit integer.

Shapes need not agree: a row without a right-hand side is not compared, and a sum
runs over the columns that have an unknown.

## Main definitions

– `ScaledGauss.Grid.rowGap`: the difference in one row;
– `ScaledGauss.Grid.upperResidual`: the largest of them.
-/

namespace ScaledGauss

namespace Grid

/-- The sum of a row from column `i` onward, over the unknowns there are. -/
def rowSum (i : Nat) (row x : List Scaled) : Except Error Int :=
  ((row.zip x).drop i).foldlM (fun sum (a, b) => do
    Word.add 128 sum (← Word.mul 128 a.val b.val)) 0

/-- **The difference in row `i`** between its exact sum over the scale and the
right-hand side. -/
def rowGap (fracBits i : Nat) (row x : List Scaled) (y : Scaled) : Except Error Nat := do
  let scaled ← Word.shiftRight 128 (← rowSum i row x) fracBits
  let difference ← Word.sub 128 scaled y.val
  return difference.natAbs

/-- The greatest signed 64-bit integer. -/
def residualLimit : Nat := pow2 63 - 1

/-- **The residual**: the largest difference over the rows that have a right-hand
side, and zero if there are none. -/
def upperResidual {r c : Nat} (m : Grid r c) (x y : List Scaled) (fracBits : Nat) :
    Except Error Nat := do
  let gaps ← ((m.toLists.zip y).zipIdx).mapM fun ((row, b), i) => rowGap fracBits i row x b
  return Nat.min residualLimit (gaps.foldl Nat.max 0)

end Grid

end ScaledGauss

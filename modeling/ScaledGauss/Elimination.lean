import ScaledGauss.Augmented
import ScaledGauss.Event
import ScaledGauss.Plan

/-!
# Gaussian elimination with sequential pivoting

A system is reduced to upper-triangular form step by step. Step `i` first **scans**
column `i` from the diagonal down: whenever an entry is strictly greater, as a
signed value, than the diagonal entry found so far, the two rows are exchanged from
column `i` onward. The diagonal is thus a running maximum, each improvement is an
exchange of its own, and magnitudes are not compared. Then every row below is
**reduced** by a multiple of the pivot row.

The scan asks nothing of the arithmetic. A reduction divides once for its
multiplier and then multiplies and subtracts once for each column from the `i`-th
on, the right-hand side being the last of them. A zero pivot is handed to the
arithmetic like any other divisor.

## Main definitions

– `ScaledGauss.Swap`: an exchange on record;
– `ScaledGauss.Stage`: the state between two actions of an elimination;
– `ScaledGauss.Stage.scan`, `ScaledGauss.Stage.reduceRow`,
  `ScaledGauss.Stage.step`: the actions;
– `ScaledGauss.Augmented.eliminate`: the whole elimination.
-/

namespace ScaledGauss

/-- **An exchange of rows** made during an elimination. -/
structure Swap where
  /-- The step, which is also the diagonal row. -/
  step : Nat
  /-- The row exchanged with the diagonal row. -/
  row : Nat
deriving DecidableEq

/-- **The state of an elimination.** -/
structure Stage (n : Nat) where
  /-- The system as it is now. -/
  system : Augmented n
  /-- The multipliers used so far, below a diagonal of ones. -/
  lower : Grid n n
  /-- The exchanges made so far, in order. -/
  swaps : List Swap
  /-- The events reported so far, in order. -/
  log : List Event

/-- The rows strictly below row `i`, from the top. -/
def rowsBelow {n : Nat} (i : Fin n) : List (Fin n) :=
  (List.finRange n).filter (i < ·)

/-- The columns of an augmented matrix from column `i` on, from the left. -/
def columnsFrom {n : Nat} (i : Fin n) : List (Fin (n + 1)) :=
  (List.finRange (n + 1)).filter (i.castSucc ≤ ·)

@[simp] theorem mem_rowsBelow {n : Nat} {i k : Fin n} : k ∈ rowsBelow i ↔ i < k := by
  simp [rowsBelow]

@[simp] theorem mem_columnsFrom {n : Nat} {i : Fin n} {j : Fin (n + 1)} :
    j ∈ columnsFrom i ↔ i.castSucc ≤ j := by
  simp [columnsFrom]

namespace Stage

variable {n : Nat}

/-- The state before the first step. -/
def start (one zero : Scaled) (a : Augmented n) : Stage n where
  system := a
  lower := .identity n one zero
  swaps := []
  log := []

/-- The coefficient in row `k` and column `i`. -/
def coefficient (S : Stage n) (k i : Fin n) : Scaled := S.system.entry k i.castSucc

/-! ### The scan -/

/-- Rows `i` and `k` exchanged from column `i` onward, on record and reported. -/
def exchange (S : Stage n) (i k : Fin n) : Stage n where
  system := S.system.swapFrom i k i
  lower := S.lower
  swaps := S.swaps ++ [⟨i, k⟩]
  log := S.log ++ [.exceeds i k (S.coefficient k i) (S.coefficient i i)]

/-- One comparison of the scan at step `i`: an entry that exceeds the pivot takes
its place. -/
def compare (i : Fin n) (S : Stage n) (k : Fin n) : Stage n :=
  if S.coefficient i i < S.coefficient k i then S.exchange i k else S

/-- **The scan of step `i`**: the rows below are compared with the diagonal row,
from the top. -/
def scan (S : Stage n) (i : Fin n) : Stage n := (rowsBelow i).foldl (compare i) S

/-! ### The reduction -/

/-- The entry of row `k` in column `j`, less the multiple of the pivot row's. -/
def reduceEntry (i k : Fin n) (factor : Scaled) (S : Stage n) (j : Fin (n + 1)) :
    Plan (Stage n) (Stage n) := do
  let product ← .consult S .multiply factor (S.system.entry i j)
  let difference ← .consult S .subtract (S.system.entry k j) product
  return { S with system := S.system.setEntry k j difference }

/-- **The reduction of row `k`** by the pivot row `i`: the multiplier is entered
among the multipliers, and used on every column from the `i`-th on. -/
def reduceRow (i : Fin n) (pivot : Scaled) (S : Stage n) (k : Fin n) :
    Plan (Stage n) (Stage n) := do
  let factor ← .consult S .divide (S.coefficient k i) pivot
  (columnsFrom i).foldlM (reduceEntry i k factor)
    { S with lower := S.lower.setEntry k i factor }

/-- The reduction of all rows below row `i`. -/
def reduce (S : Stage n) (i : Fin n) : Plan (Stage n) (Stage n) :=
  (rowsBelow i).foldlM (reduceRow i (S.coefficient i i)) S

/-- **Step `i`**: the scan, then the reduction. There is nothing to do at the last
row. -/
def step (S : Stage n) (i : Fin n) : Plan (Stage n) (Stage n) := (S.scan i).reduce i

/-- The matrix as it is now; after an elimination only its upper triangle counts,
and what stands below the diagonal is the residue of rounding. -/
def upper (S : Stage n) : Grid n n := S.system.matrix

/-- The right-hand side as it is now. -/
def rhs (S : Stage n) : Column n := S.system.rhs

end Stage

/-- **The elimination of a system**: all steps in order. The constants are those of
the identity matrix that the multipliers are entered in. -/
def Augmented.eliminate {n : Nat} (one zero : Scaled) (a : Augmented n) :
    Plan (Stage n) (Stage n) :=
  (List.finRange n).foldlM Stage.step (.start one zero a)

end ScaledGauss

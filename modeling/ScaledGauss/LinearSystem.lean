import ScaledGauss.BackSubstitution

/-!
# Systems of any shape

A matrix of any shape with a right-hand side of any length. The procedures of the
solver want a square matrix with a right-hand side to match; they check the shape
first, and a system that fails the check is left as it is, with no call made.

## Main definitions

– `ScaledGauss.LinearSystem`, with its checked edits `swapRowsFrom` and `setEntry`;
– `ScaledGauss.LinearSystem.augmented`: the augmented matrix of a system of the
  right shape;
– `ScaledGauss.LinearSystem.eliminate`, `ScaledGauss.LinearSystem.backSubstitute`,
  `ScaledGauss.LinearSystem.solve`: the procedures, after the check.
-/

namespace ScaledGauss

/-- **A system of any shape.** -/
structure LinearSystem where
  /-- The number of rows of the matrix. -/
  rows : Nat
  /-- The number of columns of the matrix. -/
  cols : Nat
  /-- The coefficients. -/
  matrix : Grid rows cols
  /-- The right-hand side. -/
  rhs : Array Scaled

/-- What an elimination leaves behind where it ends early: the system as it is at
that point, and the events reported so far. -/
structure Remains where
  /-- The system, partly eliminated. -/
  system : LinearSystem
  /-- The events, in order. -/
  log : List Event

namespace LinearSystem

/-! ### Edits -/

/-- **Rows `i` and `k` exchanged** from a column onward, and entries `i` and `k` of
the right-hand side. A row exchanged with itself stays, whether it exists or not;
otherwise both must be rows of the matrix, unless no column is left to exchange, and
entries of the right-hand side. -/
def swapRowsFrom (s : LinearSystem) (i k start : Nat) : Except Error LinearSystem :=
  if i = k then .ok s
  else if hb : i < s.rhs.size ∧ k < s.rhs.size then
    if hm : i < s.rows ∧ k < s.rows then
      .ok { s with
        matrix := s.matrix.swapFrom ⟨i, hm.1⟩ ⟨k, hm.2⟩ start
        rhs := s.rhs.swap i k hb.1 hb.2 }
    else if s.cols ≤ start then
      .ok { s with rhs := s.rhs.swap i k hb.1 hb.2 }
    else .error (.fault .indexOutOfRange)
  else .error (.fault .indexOutOfRange)

/-- One coefficient replaced. -/
def setEntry (s : LinearSystem) (i j : Nat) (a : Scaled) : Except Error LinearSystem :=
  if h : i < s.rows ∧ j < s.cols then
    .ok { s with matrix := s.matrix.setEntry ⟨i, h.1⟩ ⟨j, h.2⟩ a }
  else .error (.fault .indexOutOfRange)

/-! ### The shape -/

/-- **The augmented matrix** of a system that has equations, a square matrix and a
right-hand side of the same length. -/
def augmented (s : LinearSystem) : Except Error (Augmented s.rows) :=
  if s.rows = 0 then .error .emptySystem
  else if hc : s.cols = s.rows then
    if hb : s.rhs.size = s.rows then
      .ok (.join
        (.ofEntries fun i j => s.matrix.entry i (j.cast hc.symm))
        ⟨s.rhs, hb⟩)
    else .error (.dimensionMismatch .rightHandSide s.rows s.rhs.size)
  else .error (.dimensionMismatch .matrixColumns s.rows s.cols)

/-- The dimension of a system of the right shape. -/
def dimension (s : LinearSystem) : Except Error Nat := do
  let _ ← s.augmented
  return s.rows

/-- A square system, as one of any shape. -/
def ofAugmented {n : Nat} (a : Augmented n) : LinearSystem where
  rows := n
  cols := n
  matrix := a.matrix
  rhs := a.rhs.toArray

/-! ### The procedures -/

/-- What a stage of an elimination leaves behind. -/
def remains {n : Nat} (S : Stage n) : Remains := ⟨ofAugmented S.system, S.log⟩

/-- A procedure on the augmented matrix, after the check of the shape. -/
def afterCheck {α : Type} (s : LinearSystem)
    (procedure : Augmented s.rows → Plan (Stage s.rows) α) : Plan Remains α :=
  match s.augmented with
  | .ok a => (procedure a).mapHeld remains
  | .error cause => .stop ⟨s, []⟩ cause

/-- **Elimination**, after the check of the shape. -/
def eliminate (one zero : Scaled) (s : LinearSystem) : Plan Remains (Stage s.rows) :=
  s.afterCheck (·.eliminate one zero)

/-- **Back substitution**, after the check of the shape; the system is not changed. -/
def backSubstitute (zero : Scaled) (s : LinearSystem) : Plan Remains (Column s.rows) :=
  match s.augmented with
  | .ok a => a.backSubstitute ⟨s, []⟩ zero
  | .error cause => .stop ⟨s, []⟩ cause

/-- **Elimination and back substitution**, after the check of the shape. -/
def solve (one zero : Scaled) (s : LinearSystem) :
    Plan Remains (Stage s.rows × Column s.rows) :=
  s.afterCheck (·.solve one zero)

end LinearSystem

end ScaledGauss

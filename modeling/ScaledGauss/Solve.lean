import ScaledGauss.BackSubstitution
import ScaledGauss.Config
import ScaledGauss.Format.Arithmetic
import ScaledGauss.Residual

/-!
# Solving a system given as flat data

The matrix arrives as a row-major sequence and the right-hand side as another, both
in the configured format. A solve checks them against the dimension, eliminates,
substitutes back and measures the residual, and reports events on the way.

## Main definitions

– `ScaledGauss.Logged`: an outcome together with the events reported;
– `ScaledGauss.Report`: everything a solve produces;
– `ScaledGauss.Config.solve`: the solve;
– `ScaledGauss.Config.solveOwned`: the same on data marked with its owners;
– `ScaledGauss.Config.solveBatch`: a list of systems, one after the other.
-/

namespace ScaledGauss

/-! ### Outcomes with events -/

/-- **An outcome and the events reported** up to it, in order. -/
structure Logged (α : Type) where
  /-- The events. -/
  log : List Event
  /-- The result, or the cause of failure. -/
  outcome : Except Error α

namespace Logged

variable {α β : Type}

/-- An outcome without events. -/
def quiet (outcome : Except Error α) : Logged α := ⟨[], outcome⟩

/-- Events, and nothing else. -/
def tell (events : List Event) : Logged Unit := ⟨events, .ok ()⟩

/-- First `x`, then what `f` makes of its result; the events follow each other. -/
def bind (x : Logged α) (f : α → Logged β) : Logged β :=
  match x.outcome with
  | .ok a =>
    let y := f a
    ⟨x.log ++ y.log, y.outcome⟩
  | .error cause => ⟨x.log, .error cause⟩

instance : Monad Logged where
  pure a := ⟨[], .ok a⟩
  bind := bind

end Logged

/-! ### The solve -/

/-- **Everything a solve produces.** -/
structure Report where
  /-- The dimension. -/
  n : Nat
  /-- The upper-triangular matrix. -/
  upper : Grid n n
  /-- The right-hand side that goes with it. -/
  rhs : Column n
  /-- The multipliers, below a diagonal of ones. -/
  lower : Grid n n
  /-- The exchanges, in order. -/
  swaps : List Swap
  /-- The solution. -/
  solution : Column n
  /-- How far the solution is from solving the triangular system exactly. -/
  residual : Nat

namespace Config

/-- The system that flat data describes, checked in this order: the dimension, the
matrix, the right-hand side. -/
def assemble (c : Config) (matrix rhs : Array Scaled) :
    Except Error (Augmented c.dimension) := do
  c.validate
  let m ← Grid.ofFlat c.dimension matrix
  let b ← columnOfFlat c.dimension rhs
  return .join m b

/-- Elimination in the configured format, with the events of its scan; they are
reported also where it fails. -/
def eliminate (c : Config) (a : Augmented c.dimension) : Logged (Stage c.dimension) :=
  let A := c.format.arithmetic
  match (a.eliminate A.one A.zero).eval A with
  | .ok S => ⟨S.log, .ok S⟩
  | .error stopped => ⟨stopped.held.log, .error stopped.cause⟩

/-- Back substitution in the configured format. -/
def backSubstitute (c : Config) (a : Augmented c.dimension) : Except Error (Column c.dimension) :=
  let A := c.format.arithmetic
  match (a.backSubstitute () A.zero).eval A with
  | .ok x => .ok x
  | .error stopped => .error stopped.cause

/-- **The solve.** -/
def solve (c : Config) (matrix rhs : Array Scaled) : Logged Report := do
  let a ← .quiet (c.assemble matrix rhs)
  .tell [.solving c.dimension c.format.fracBits]
  let S ← c.eliminate a
  if 0 < c.verbosity then
    .tell (S.swaps.map fun swap => .swapped swap.step swap.row)
  let x ← .quiet (c.backSubstitute S.system)
  let residual ← .quiet (S.upper.upperResidual x.toList S.rhs.toList c.format.fracBits)
  .tell [.solved x.toList residual]
  return {
    n := c.dimension
    upper := S.upper
    rhs := S.rhs
    lower := S.lower
    swaps := S.swaps
    solution := x
    residual := residual }

/-- The solution alone. -/
def solution (c : Config) (matrix rhs : Array Scaled) : Logged (List Scaled) := do
  let report ← c.solve matrix rhs
  return report.solution.toList

end Config

/-! ### Owned data, and batches -/

/-- **A value marked with its owner.** In a joint computation each input belongs to
one party; the mark is dropped where the computation begins. -/
structure Owned (α : Type) where
  /-- The owner. -/
  party : UInt8
  /-- What is owned. -/
  value : α
deriving DecidableEq

namespace Config

/-- The solution of a system whose matrix and right-hand side have owners; who they
are makes no difference. -/
def solveOwned (c : Config) (matrix rhs : Owned (Array Scaled)) : Logged (List Scaled) :=
  c.solution matrix.value rhs.value

/-- **A batch**: each system is solved on its own, whatever becomes of the others. The
systems are solved one after the other, and so are their events reported; solving them
side by side, where the events of one may come among those of another, is left out. -/
def solveBatch (c : Config) (systems : List (Array Scaled × Array Scaled)) :
    List Event × List (Except Error (List Scaled)) :=
  let runs := systems.map fun (matrix, rhs) => c.solution matrix rhs
  (.batch systems.length :: runs.flatMap Logged.log, runs.map Logged.outcome)

end Config

end ScaledGauss

import ScaledGauss.Decimal.Places
import ScaledGauss.Solve

/-!
# The report as text

The solution is always printed; the elimination is printed before it on demand, as
two tables with four places. Numbers are in the format of the problem.

## Main definitions

– `ScaledGauss.CommandLine.stepLines`: the lines on the elimination;
– `ScaledGauss.CommandLine.solutionLines`: the lines on the solution.
-/

namespace ScaledGauss

namespace CommandLine

/-- A text of lines, each ended. -/
def unlines (lines : List String) : String := String.join (lines.map (· ++ "\n"))

/-- A cell of a table: four places, ten characters wide. -/
def cell (f : Format) (a : Scaled) : String := padLeft 10 (f.places 4 a)

/-- The lines on the exchanges. -/
def swapLines (swaps : List Swap) : List String :=
  if swaps = [] then ["  (none)"]
  else swaps.map fun s => s!"  step {s.step}: row {s.step} <-> row {s.row}"

/-- One row of the triangular system: blank below the diagonal, and the right-hand
side after a bar. -/
def upperLine (f : Format) (r : Report) (i : Fin r.n) : String :=
  let cells := (List.finRange r.n).map fun j =>
    if j < i then padLeft 10 "" else cell f (r.upper.entry i j)
  "  " ++ " ".intercalate cells ++ " | " ++ cell f (r.rhs.get i)

/-- One row of the multipliers. -/
def lowerLine (f : Format) (r : Report) (i : Fin r.n) : String :=
  "  " ++ " ".intercalate ((List.finRange r.n).map fun j => cell f (r.lower.entry i j))

/-- **The lines on the elimination.** -/
def stepLines (f : Format) (r : Report) : List String :=
  ["Row swaps:"] ++ swapLines r.swaps ++
  ["Upper-triangular system [U | y]:"] ++ (List.finRange r.n).map (upperLine f r) ++
  ["Multipliers L:"] ++ (List.finRange r.n).map (lowerLine f r)

/-- The name of a rounding in a heading. -/
def roundingTitle : Rounding → String
  | .truncate => "Truncate"
  | .nearest => "Nearest"

/-- The name of an overflow policy in a heading. -/
def overflowTitle : Overflow → String
  | .wrapping => "Wrapping"
  | .saturating => "Saturating"
  | .checked => "Checked"

/-- The heading of the solution: bits before and after the point, and the
policies. -/
def heading (f : Format) : String :=
  let whole := 31 - f.fracBits
  let rounding := roundingTitle f.rounding
  let overflow := overflowTitle f.overflow
  s!"Solution (Q{whole}.{f.fracBits}, {rounding}, {overflow}):"

/-- One unknown, with six places and as a raw value. -/
def unknownLine (f : Format) (x : Scaled) (i : Nat) : String :=
  let value := padLeft 14 (f.places 6 x)
  s!"  x[{i}] = {value}   (raw {x.text})"

/-- **The lines on the solution.** -/
def solutionLines (f : Format) (r : Report) : List String :=
  [heading f] ++ r.solution.toList.zipIdx.map (fun (x, i) => unknownLine f x i) ++
  [s!"Residual: {r.residual} raw units"]

end CommandLine

end ScaledGauss

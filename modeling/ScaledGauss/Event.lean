import ScaledGauss.Scaled

/-!
# What a solve reports while it runs

A run tells what it does as a sequence of events. An event is kept as the facts it
is about; its level and its wording follow from them.

## Main definitions

– `ScaledGauss.Event`: the events;
– `ScaledGauss.Event.level`, `ScaledGauss.Event.text`: how an event is reported.
-/

namespace ScaledGauss

/-- **An event** of a run. -/
inductive Event
  /-- A batch of systems is about to be solved. -/
  | batch (count : Nat)
  /-- A system of a given dimension and scale is about to be eliminated. -/
  | solving (dimension fracBits : Nat)
  /-- At a step, the entry of a row below exceeds the pivot; the rows are about to be
  exchanged. -/
  | exceeds (step row : Nat) (entry pivot : Scaled)
  /-- A row was exchanged with the diagonal row of a step. -/
  | swapped (step row : Nat)
  /-- A solution was found, with its residual. -/
  | solved (solution : List Scaled) (residual : Nat)
deriving DecidableEq

/-- The levels of detail at which events are reported. -/
inductive Level
  | info
  | debug
  | trace
deriving DecidableEq

/-- The name of a level. -/
def Level.name : Level → String
  | .info => "info"
  | .debug => "debug"
  | .trace => "trace"

/-- The level at which an event is reported. -/
def Event.level : Event → Level
  | .batch _ => .debug
  | .solving _ _ => .debug
  | .exceeds _ _ _ _ => .debug
  | .swapped _ _ => .info
  | .solved _ _ => .trace

/-- The wording of an event. A batch is never parallel (`ScaledGauss.Config.solveBatch`).
A solution is worded as its raw values alone, without their type and without the shape
and layout of the vector that holds them, which stand in the line too but are left
out. -/
def Event.text : Event → String
  | .batch count => s!"solving batch of {count} systems (parallel: false)"
  | .solving n fracBits => s!"solving {n}x{n} system with {fracBits} fractional bits"
  | .exceeds step row entry pivot =>
    s!"step {step}: row {row} ({entry.text}) exceeds pivot ({pivot.text}), swapping"
  | .swapped step row => s!"step {step}: swapped rows {step} and {row}"
  | .solved solution residual =>
    let values := ", ".intercalate (solution.map Scaled.text)
    s!"solution [{values}], residual {residual} raw units"

end ScaledGauss

import ScaledGauss.Json.Reader
import ScaledGauss.Problem

/-!
# Reading stored values

Formats, configurations, problems, flat systems and owned values, each read as a
record. A field that is not given takes its standard value in a format, in a
configuration and for the configuration of a problem; every other field must be
given. A format is refused where it is closed if its scale is not supported, so
that error comes before any fault further on in the text.

## Main definitions

– `ScaledGauss.Stored.format`, `config`, `problem`, `flatSystem`, `owned`,
  `scaled`: the readers.
-/

namespace ScaledGauss

namespace Stored

open Json

/-- A raw value. -/
def scaled : Reader Scaled := readToken scaledOf

/-- A format in the making. -/
structure PartialFormat where
  /-- The number of fractional bits, if given. -/
  fracBits : Option Nat := none
  /-- The rounding, if given. -/
  rounding : Option Rounding := none
  /-- The overflow policy, if given. -/
  overflow : Option Overflow := none

/-- The fields of a format. -/
def formatSlots : List (Slot PartialFormat) := [
  .of "frac_bits" (·.fracBits) (fun r a => { r with fracBits := some a })
    (readToken (naturalOf (pow2 32))),
  .of "rounding" (·.rounding) (fun r a => { r with rounding := some a })
    (readChoice Rounding.ofName?),
  .of "overflow" (·.overflow) (fun r a => { r with overflow := some a })
    (readChoice Overflow.ofName?)]

/-- What was not given is taken from the standard format; the scale is checked. -/
def PartialFormat.finish (r : PartialFormat) : Except ReadError Format :=
  let fracBits := r.fracBits.getD Format.standard.fracBits
  if h : fracBits ≤ maxFracBits then
    .ok {
      fracBits := fracBits
      rounding := r.rounding.getD Format.standard.rounding
      overflow := r.overflow.getD Format.standard.overflow
      fracBits_le := h }
  else .error (.unsupportedScale fracBits)

/-- **A format**, checked where it is closed. -/
def format : Reader Format := fun ts => do
  let (r, rest) ← readRecord formatSlots {} ts
  return (← r.finish, rest)

/-- A configuration in the making. -/
structure PartialConfig where
  /-- The number of unknowns, if given. -/
  dimension : Option Nat := none
  /-- The format, if given. -/
  format : Option Format := none
  /-- The verbosity, if given. -/
  verbosity : Option Nat := none

/-- The fields of a configuration. -/
def configSlots : List (Slot PartialConfig) := [
  .of "dimension" (·.dimension) (fun r a => { r with dimension := some a })
    (readToken (naturalOf (pow2 64))),
  .of "format" (·.format) (fun r a => { r with format := some a }) Stored.format,
  .of "verbosity" (·.verbosity) (fun r a => { r with verbosity := some a })
    (readToken (naturalOf (pow2 64)))]

/-- What was not given is taken from the standard configuration. -/
def PartialConfig.finish (r : PartialConfig) : Config where
  dimension := r.dimension.getD Config.standard.dimension
  format := r.format.getD Config.standard.format
  verbosity := r.verbosity.getD Config.standard.verbosity

/-- **A configuration.** -/
def config : Reader Config := fun ts => do
  let (r, rest) ← readRecord configSlots {} ts
  return (r.finish, rest)

/-- Numbers, marked as reals or as raw values by the one member of an object. -/
def values : Reader Values
  | .opening .curly :: .text (some name) :: .colon :: ts => do
    let (v, rest) ←
      if name = "real" then do
        let (xs, rest) ← readList realOf ts
        pure (Values.real xs, rest)
      else if name = "raw" then do
        let (xs, rest) ← readList scaledOf ts
        pure (Values.raw xs, rest)
      else .error .malformed
    match rest with
    | .closing .curly :: rest => return (v, rest)
    | _ => .error .malformed
  | _ => .error .malformed

/-- A problem in the making. -/
structure PartialProblem where
  /-- The configuration, if given. -/
  config : Option Config := none
  /-- The matrix, if given. -/
  matrix : Option Values := none
  /-- The right-hand side, if given. -/
  rhs : Option Values := none

/-- The fields of a problem. -/
def problemSlots : List (Slot PartialProblem) := [
  .of "config" (·.config) (fun r a => { r with config := some a }) Stored.config,
  .of "matrix" (·.matrix) (fun r a => { r with matrix := some a }) values,
  .of "rhs" (·.rhs) (fun r a => { r with rhs := some a }) values]

/-- **A problem.** Without a configuration it has the standard one; the matrix and
the right-hand side must be given. -/
def problem : Reader Problem := fun ts => do
  let (r, rest) ← readRecord problemSlots {} ts
  match r.matrix, r.rhs with
  | some matrix, some rhs => return (⟨r.config.getD .standard, matrix, rhs⟩, rest)
  | _, _ => .error .malformed

/-- A flat system in the making. -/
structure PartialFlatSystem where
  /-- The matrix, if given. -/
  matrix : Option (List Scaled) := none
  /-- The right-hand side, if given. -/
  rhs : Option (List Scaled) := none

/-- The fields of a flat system. -/
def flatSystemSlots : List (Slot PartialFlatSystem) := [
  .of "matrix" (·.matrix) (fun r a => { r with matrix := some a }) (readList scaledOf),
  .of "rhs" (·.rhs) (fun r a => { r with rhs := some a }) (readList scaledOf)]

/-- **A flat system**; both parts must be given. -/
def flatSystem : Reader FlatSystem := fun ts => do
  let (r, rest) ← readRecord flatSystemSlots {} ts
  match r.matrix, r.rhs with
  | some matrix, some rhs => return (⟨matrix, rhs⟩, rest)
  | _, _ => .error .malformed

/-- Owned values in the making. -/
structure PartialOwned where
  /-- The owner, if given. -/
  party : Option Nat := none
  /-- What is owned, if given. -/
  value : Option (List Scaled) := none

/-- The fields of owned values. -/
def ownedSlots : List (Slot PartialOwned) := [
  .of "party" (·.party) (fun r a => { r with party := some a })
    (readToken (naturalOf (pow2 8))),
  .of "value" (·.value) (fun r a => { r with value := some a }) (readList scaledOf)]

/-- **Owned values**; the owner and the values must be given. -/
def owned : Reader (Owned (List Scaled)) := fun ts => do
  let (r, rest) ← readRecord ownedSlots {} ts
  match r.party, r.value with
  | some party, some value => return (⟨UInt8.ofNat party, value⟩, rest)
  | _, _ => .error .malformed

end Stored

end ScaledGauss

import ScaledGauss.Format

/-!
# Configurations

What a solve is told besides its numbers: the dimension, the format that every
number is in, and how much to report.
-/

namespace ScaledGauss

/-- **The configuration of a solve.** -/
structure Config where
  /-- The number of unknowns. -/
  dimension : Nat
  /-- The format of every number of the system. -/
  format : Format
  /-- How much to report: above zero, the record of exchanges too. -/
  verbosity : Nat
deriving DecidableEq

namespace Config

/-- Three unknowns in the standard format, reporting little. -/
def standard : Config where
  dimension := 3
  format := .standard
  verbosity := 0

/-- The standard configuration for another number of unknowns. -/
def ofDimension (n : Nat) : Config := { standard with dimension := n }

/-- A configuration without unknowns is refused. -/
def validate (c : Config) : Except Error Unit :=
  if c.dimension = 0 then .error .emptySystem else .ok ()

end Config

end ScaledGauss

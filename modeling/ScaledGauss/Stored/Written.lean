import ScaledGauss.Json.Document
import ScaledGauss.Solve

/-!
# Written forms

How formats, configurations, owned values and reports are written. The members of
each object stand in a fixed order.
-/

namespace ScaledGauss

open Json (Document)

/-- The written form of a format. -/
def Format.document (f : Format) : Document :=
  .record [
    ("frac_bits", .integer f.fracBits),
    ("rounding", .name f.rounding.name),
    ("overflow", .name f.overflow.name)]

/-- The written form of a configuration. -/
def Config.document (c : Config) : Document :=
  .record [
    ("dimension", .integer c.dimension),
    ("format", c.format.document),
    ("verbosity", .integer c.verbosity)]

/-- The written form of owned values. -/
def Owned.document (o : Owned (List Scaled)) : Document :=
  .record [("party", .integer o.party.toNat), ("value", .scaledList o.value)]

/-- The written form of a table: a version, the shape, and the entries row by row. -/
def tableDocument (shape : List Nat) (data : List Scaled) : Document :=
  .record [
    ("v", .integer 1),
    ("dim", .list (shape.map fun n : Nat => .integer n)),
    ("data", .scaledList data)]

/-- The written form of an exchange. -/
def Swap.document (s : Swap) : Document :=
  .record [("step", .integer s.step), ("row", .integer s.row)]

/-- The written form of a report. -/
def Report.document (r : Report) : Document :=
  .record [
    ("elimination", .record [
      ("upper", tableDocument [r.n, r.n] r.upper.toLists.flatten),
      ("rhs", tableDocument [r.n] r.rhs.toList),
      ("lower", tableDocument [r.n, r.n] r.lower.toLists.flatten),
      ("swaps", .list (r.swaps.map Swap.document)),
      ("n", .integer r.n)]),
    ("solution", tableDocument [r.n] r.solution.toList),
    ("residual", .integer r.residual)]

end ScaledGauss

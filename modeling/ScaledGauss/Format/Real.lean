import ScaledGauss.Binary64
import ScaledGauss.Format.Arithmetic

/-!
# Reals in a format

A real becomes a raw value by scaling, rounding to the nearest whole number of raw
units – a half going away from zero, whatever the format's own rounding is – and
the overflow policy. A number of raw units outside 64 bits is not wrapped: it is
cut under a clamping policy and refused under the others. In the other direction
every raw value is a real exactly.

## Main definitions

– `ScaledGauss.Format.unitsOf`: a dyadic rational in raw units;
– `ScaledGauss.Format.ofReal`, `ScaledGauss.Format.toReal`: the two conversions;
– `ScaledGauss.Format.scale`, `ScaledGauss.Format.ulp`: the scale and its inverse.
-/

namespace ScaledGauss

namespace Format

/-- **A dyadic rational in raw units**: `± significand * 2 ^ exponent`, times the
scale, rounded to the nearest integer with a half going away from zero. -/
def unitsOf (f : Format) (negative : Bool) (significand : Nat) (exponent : Int) : Int :=
  let shift := exponent + f.fracBits
  let magnitude :=
    if 0 ≤ shift then significand * pow2 shift.toNat
    else nearestUp significand (pow2 (-shift).toNat)
  if negative then -(magnitude : Int) else magnitude

/-- **A real in the format.** -/
def ofReal (f : Format) (x : Binary64) : Except Error Scaled :=
  match x.denote with
  | .finite negative significand exponent =>
    let units := f.unitsOf negative significand exponent
    if Word.Fits 64 units then f.narrow conversion units
    else
      match f.overflow with
      | .saturating => .ok (if 0 < units then .greatest else .least)
      | .wrapping => .error (.overflow conversion)
      | .checked => .error (.overflow conversion)
  | .infinite _ => .error .notFinite
  | .undefined => .error .notFinite

/-- **A raw value as a real**, exactly. -/
def toReal (f : Format) (a : Scaled) : Binary64 :=
  .ofDyadic (a.val < 0) a.val.natAbs f.fracBits

/-- The scale, as a real. -/
def scale (f : Format) : Binary64 := .ofDyadic false (pow2 f.fracBits) 0

/-- One raw unit, as a real. -/
def ulp (f : Format) : Binary64 := .ofDyadic false 1 f.fracBits

end Format

end ScaledGauss

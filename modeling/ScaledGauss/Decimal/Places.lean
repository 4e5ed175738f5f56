import ScaledGauss.Format
import ScaledGauss.Nearest
import ScaledGauss.Power

/-!
# Decimal text with a fixed number of places

A raw value is a fraction over a power of two, and its decimal text with a fixed
number of places is the nearest such decimal, a tie going to the even digit. The
sign of a negative value stays even where all its digits are zero.

## Main definitions

– `ScaledGauss.Format.places`: the text of a raw value;
– `ScaledGauss.padLeft`: a text brought to a least width.
-/

namespace ScaledGauss

/-- A text brought to a least width by blanks in front; a longer one stays. -/
def padLeft (width : Nat) (s : String) : String :=
  String.ofList (List.replicate (width - s.length) ' ') ++ s

/-- A whole number of units of `10 ^ (-places)`, for at least one place. -/
def unitsText (places units : Nat) : String :=
  let fraction := toString (units % pow10 places)
  let zeros := String.ofList (List.replicate (places - fraction.length) '0')
  toString (units / pow10 places) ++ "." ++ zeros ++ fraction

/-- **The text of a raw value** with a fixed number of decimal places. -/
def Format.places (f : Format) (places : Nat) (a : Scaled) : String :=
  let units := nearestEven (a.val.natAbs * pow10 places) (pow2 f.fracBits)
  (if a.val < 0 then "-" else "") ++ unitsText places units

end ScaledGauss

import ScaledGauss.Arithmetic
import ScaledGauss.Format
import ScaledGauss.Word

/-!
# The arithmetic of a format

The four operations under a format: the exact result is formed in a 64-bit word,
rounded to a whole number of raw units there, and brought into the 32-bit range by
the overflow policy.

## Main definitions

– `ScaledGauss.Format.narrow`: the overflow policy;
– `ScaledGauss.Format.roundProduct`, `roundQuotient`: the rounding, in words;
– `ScaledGauss.Format.multiply`, `divide`, `add`, `subtract`, `ofInteger`;
– `ScaledGauss.Format.arithmetic`: the four operations with the constants one and
  zero, as an arithmetic.
-/

namespace ScaledGauss

namespace Format

/-- **The overflow policy**: a whole number of raw units as a raw value. The
operation is named in the refusal. -/
def narrow (f : Format) (operation : String) (z : Int) : Except Error Scaled :=
  match f.overflow with
  | .wrapping => .ok (.wrap z)
  | .saturating => .ok (.clamp z)
  | .checked =>
    match Scaled.ofInt? z with
    | some a => .ok a
    | none => .error (.overflow operation)

/-- A product of two raw values, divided by the scale. Rounding to nearest is done
on the magnitude, so that a half goes away from zero, and the sign is put back. -/
def roundProduct (f : Format) (product : Int) : Except Error Int :=
  match f.rounding with
  | .truncate => Word.shiftRight 64 product f.fracBits
  | .nearest =>
    if f.fracBits = 0 then .ok product
    else do
      let half ← Word.shiftLeft 64 1 (f.fracBits - 1)
      let raised ← Word.add 64 product.natAbs half
      let magnitude ← Word.shiftRight 64 raised f.fracBits
      Word.mul 64 product.sign magnitude

/-- A quotient of two words. Rounding to nearest looks at twice the remainder:
once that reaches the divisor, the quotient moves one unit away from zero. -/
def roundQuotient (f : Format) (numerator denominator : Int) : Except Error Int := do
  let quotient ← Word.quot 64 numerator denominator
  match f.rounding with
  | .truncate => return quotient
  | .nearest =>
    let remainder ← Word.rem 64 numerator denominator
    let doubled ← Word.mul 64 2 (← Word.abs 64 remainder)
    if (← Word.abs 64 denominator) ≤ doubled then
      Word.add 64 quotient (numerator.sign * denominator.sign)
    else
      return quotient

/-- The product. -/
def multiply (f : Format) (a b : Scaled) : Except Error Scaled := do
  let product ← Word.mul 64 a.val b.val
  f.narrow Op.multiply.name (← f.roundProduct product)

/-- A quotient with divisor zero: under a clamping policy the end of the range on
the dividend's side, or zero; otherwise refused. -/
def divideByZero (f : Format) (a : Scaled) : Except Error Scaled :=
  match f.overflow with
  | .saturating =>
    .ok (if 0 < a.val then .greatest else if a.val < 0 then .least else .zero)
  | .wrapping => .error .divisionByZero
  | .checked => .error .divisionByZero

/-- The quotient. -/
def divide (f : Format) (a b : Scaled) : Except Error Scaled :=
  if b.val = 0 then f.divideByZero a
  else do
    let numerator ← Word.shiftLeft 64 a.val f.fracBits
    f.narrow Op.divide.name (← f.roundQuotient numerator b.val)

/-- The sum. -/
def add (f : Format) (a b : Scaled) : Except Error Scaled := do
  f.narrow Op.add.name (← Word.add 64 a.val b.val)

/-- The difference. -/
def subtract (f : Format) (a b : Scaled) : Except Error Scaled := do
  f.narrow Op.subtract.name (← Word.sub 64 a.val b.val)

/-- What a conversion into a format is called in a message. -/
def conversion : String := "conversion"

/-- A 32-bit integer in the format. -/
def ofInteger (f : Format) (value : Int32) : Except Error Scaled := do
  f.narrow conversion (← Word.shiftLeft 64 value.toInt f.fracBits)

/-- **The arithmetic of a format.** -/
def arithmetic (f : Format) : Arithmetic where
  apply
    | .multiply => f.multiply
    | .divide => f.divide
    | .add => f.add
    | .subtract => f.subtract
  one := f.one
  zero := .zero

end Format

end ScaledGauss

import ScaledGauss.Binary64

/-!
# Decimal numerals

A numeral in decimal notation stands for a whole number times a power of ten. The
exponent may be as large as its digits can spell, so the real nearest to a numeral
is found without forming powers of ten that cannot matter.

## Main definitions

– `ScaledGauss.Decimal`: the value of a numeral;
– `ScaledGauss.Decimal.toBinary64`: the nearest real, an infinity if the numeral
  exceeds every finite one;
– `ScaledGauss.digit?`: the value of a decimal digit.
-/

namespace ScaledGauss

/-- The value of a decimal digit. -/
def digit? (c : Char) : Option Nat :=
  if '0' ≤ c ∧ c ≤ '9' then some (c.toNat - '0'.toNat) else none

/-- The value of a string of digits, read from the left after a value already
read. -/
def digitsValue (start : Nat) (digits : List Nat) : Nat :=
  digits.foldl (fun value d => 10 * value + d) start

/-- **The value of a numeral**: `± digits * 10 ^ exponent`. -/
structure Decimal where
  /-- Whether there is a minus sign; zero may have one. -/
  negative : Bool
  /-- The digits, as a whole number. -/
  digits : Nat
  /-- The power of ten. -/
  exponent : Int
deriving DecidableEq

namespace Decimal

/-- **The real nearest to a numeral.** From exponent 310 on every numeral but zero
exceeds the finite reals. A numeral with `k` places below its digits and digits of
`b + 1` bits is below `2 ^ (b + 1 - 3 * k)`, hence below half the least positive
real as soon as `b + 1077` is less than `3 * k`. -/
def toBinary64 (d : Decimal) : Binary64 :=
  if d.digits = 0 then .ofRatio d.negative 0 1
  else if 310 ≤ d.exponent then .infinity d.negative
  else if 0 ≤ d.exponent then .ofRatio d.negative (d.digits * pow10 d.exponent.toNat) 1
  else
    let places := (-d.exponent).toNat
    if Nat.log2 d.digits + 1077 < 3 * places then .ofRatio d.negative 0 1
    else .ofRatio d.negative d.digits (pow10 places)

end Decimal

end ScaledGauss

import ScaledGauss.Json.Token

/-!
# Reals in JSON texts

A number is read as a real in two steps, and each of them rounds. The digits, as far as
64 bits hold them, make a whole number, for which the nearest real is taken; that real
is multiplied or divided by a power of ten. So the real that is read may be a neighbour
of the one nearest to the number, and a number just below the greatest real may be
refused because the product overflows.

The powers of ten that are used end with `10 ^ 308`, the last that is finite. A larger
one divides in several steps; it multiplies nothing but zero.

## Main definitions

– `ScaledGauss.Json.Numeral.significand`: the whole number and its power of ten;
– `ScaledGauss.Json.Numeral.real?`: the real that a number is read as.
-/

namespace ScaledGauss

namespace Json

/-! ### The digits that are used -/

/-- The lowest digits of a number, the highest of them first. -/
def lowDigits (n : Nat) : Nat → List Nat
  | 0 => []
  | count + 1 => n / pow10 count % 10 :: lowDigits n count

/-- **Digits appended to a significand** until one does not fit into 64 bits; and how
many are left then. -/
def takeDigits (significand : Nat) : List Nat → Nat × Nat
  | [] => (significand, 0)
  | d :: digits =>
    if 10 * significand + d < pow2 64 then takeDigits (10 * significand + d) digits
    else (significand, digits.length + 1)

/-- **The significand of a number**, and the power of ten that it is multiplied by.
Digits that are left over count as zeros. Each of the two parts of a number is taken up
to the first digit that does not fit, so that digits after the point may follow even
if some before it are left over. -/
def Numeral.significand (x : Numeral) : Nat × Int :=
  let whole := x.digits / pow10 x.places
  let (significand, before) := takeDigits 0 (lowDigits whole (Nat.toDigits 10 whole).length)
  let (significand, after) := takeDigits significand (lowDigits x.digits x.places)
  (significand, x.exponent + before + after)

/-! ### The power of ten -/

/-- The greatest exponent of a power of ten that is finite. -/
def greatestPower : Nat := 308

/-- The real nearest to a power of ten. -/
def powerOfTen (k : Nat) : Binary64 := .ofRatio false (pow10 k) 1

/-- A quotient by `10 ^ greatestPower`, as often as told, and then by `10 ^ places`.
A quotient that is zero stays so. -/
def divideByPower (x : Binary64) (places : Nat) : Nat → Option Binary64
  | 0 => x.over? (powerOfTen places)
  | rounds + 1 =>
    if x = .ofPattern false 0 then some x
    else
      match x.over? (powerOfTen greatestPower) with
      | some y => divideByPower y places rounds
      | none => none

/-- **A real times a power of ten**, with a single rounding if the power is finite. A
product beyond the greatest real is refused. -/
def timesPower (x : Binary64) (exponent : Int) : Option Binary64 :=
  if 0 ≤ exponent then
    if exponent ≤ greatestPower then x.times? (powerOfTen exponent.toNat)
    else if x = .ofPattern false 0 then some x
    else none
  else
    let places := (-exponent).toNat - 1
    divideByPower x (places % greatestPower + 1) (places / greatestPower)

/-- **The real that a number is read as**, if it is not too large. The sign is put on
at the end, on zero too. -/
def Numeral.real? (x : Numeral) : Option Binary64 :=
  let (significand, exponent) := x.significand
  (timesPower (.ofRatio false significand 1) exponent).map fun magnitude =>
    .ofPattern x.negative magnitude.bits.toNat

end Json

end ScaledGauss

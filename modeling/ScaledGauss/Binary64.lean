import ScaledGauss.Nearest
import ScaledGauss.Power

/-!
# Real numbers in 64 bits

A real number arrives as the 64 bits of a binary floating-point number: a sign,
eleven bits of exponent and fifty-two bits of fraction. What those bits denote is
either a dyadic rational – an integer times a power of two –, or an infinity, or no
number at all. Everything this library does with a real goes through that reading;
no floating-point operation is ever performed.

## Main definitions

– `ScaledGauss.Binary64`: the bits;
– `ScaledGauss.Binary64.Denotation`, `ScaledGauss.Binary64.denote`: what the bits
  stand for;
– `ScaledGauss.Binary64.ofRatio`: the number nearest to a fraction, a tie going to
  the even significand;
– `ScaledGauss.Binary64.times?`, `ScaledGauss.Binary64.over?`: products and quotients;
– `ScaledGauss.Binary64.ofDyadic`: the bits of a small integer over a power of two,
  exactly.
-/

namespace ScaledGauss

/-- **A real number in 64 bits.** -/
structure Binary64 where
  /-- Sign, exponent and fraction, from the most significant bit down. -/
  bits : UInt64
deriving DecidableEq

namespace Binary64

/-- What 64 bits stand for. -/
inductive Denotation
  /-- The number `± significand * 2 ^ exponent`; zero has a sign too. -/
  | finite (negative : Bool) (significand : Nat) (exponent : Int)
  /-- An infinity. -/
  | infinite (negative : Bool)
  /-- Not a number. -/
  | undefined
deriving DecidableEq

/-- The fifty-two bits of fraction. -/
def fraction (x : Binary64) : Nat := x.bits.toNat % pow2 52

/-- The eleven bits of exponent. -/
def biasedExponent (x : Binary64) : Nat := x.bits.toNat / pow2 52 % pow2 11

/-- The sign bit. -/
def negative (x : Binary64) : Bool := pow2 63 ≤ x.bits.toNat

/-- **What the bits stand for.** The greatest exponent marks the infinities and
what is not a number; the least one marks the numbers without a leading bit. -/
def denote (x : Binary64) : Denotation :=
  if x.biasedExponent = 2047 then
    if x.fraction = 0 then .infinite x.negative else .undefined
  else if x.biasedExponent = 0 then
    .finite x.negative x.fraction (-1074)
  else
    .finite x.negative (pow2 52 + x.fraction) (x.biasedExponent - 1075)

/-- The bits with a given sign and a given pattern below it. -/
def ofPattern (negative : Bool) (pattern : Nat) : Binary64 :=
  ⟨UInt64.ofNat (if negative then pow2 63 + pattern else pattern)⟩

/-- The pattern of the infinities below the sign; the finite numbers have the
smaller patterns, in the order of their magnitudes. -/
def infinitePattern : Nat := 2047 * pow2 52

/-- An infinity. -/
def infinity (negative : Bool) : Binary64 := ofPattern negative infinitePattern

/-- A quiet pattern that is not a number. -/
def nan : Binary64 := ofPattern false (infinitePattern + pow2 51)

/-- `num / den` over `2 ^ exponent`, as a fraction again. -/
def scaleDown (num den : Nat) (exponent : Int) : Nat × Nat :=
  if 0 ≤ exponent then (num, den * pow2 exponent.toNat)
  else (num * pow2 (-exponent).toNat, den)

/-- The exponent at which the significand nearest to `num / den` has 53 bits, or
the least exponent there is. The difference of the lengths of `num` and `den` is
off by at most one. -/
def exponentFor (num den : Nat) : Int :=
  let guess : Int := (Nat.log2 num : Int) - (Nat.log2 den : Int) - 52
  let (n, d) := scaleDown num den guess
  let exact := if n < pow2 52 * d then guess - 1 else guess
  if exact < -1074 then -1074 else exact

/-- **The number nearest to a fraction**, a tie going to the even significand; a
fraction beyond the largest finite number becomes an infinity. Rounding up to the
next power of two needs no case of its own, since the patterns are in order. -/
def ofRatio (negative : Bool) (num den : Nat) : Binary64 :=
  if num = 0 then ofPattern negative 0
  else
    let exponent := exponentFor num den
    let (n, d) := scaleDown num den exponent
    let pattern := (exponent + 1074).toNat * pow2 52 + nearestEven n d
    if pattern < infinitePattern then ofPattern negative pattern else infinity negative

/-- The number nearest to `± num / den * 2 ^ exponent`, if that is a finite one. -/
def ofScaled? (negative : Bool) (num den : Nat) (exponent : Int) : Option Binary64 :=
  let (n, d) := scaleDown num den (-exponent)
  let x := ofRatio negative n d
  if x = infinity negative then none else some x

/-- **A product**, rounded to the nearest number, if the factors and the product are
finite. -/
def times? (x y : Binary64) : Option Binary64 :=
  match x.denote, y.denote with
  | .finite s m e, .finite t n f => ofScaled? (s ^^ t) (m * n) 1 (e + f)
  | _, _ => none

/-- **A quotient**, rounded to the nearest number, if both numbers and the quotient are
finite and the divisor is not zero. -/
def over? (x y : Binary64) : Option Binary64 :=
  match x.denote, y.denote with
  | .finite s m e, .finite t n f => if n = 0 then none else ofScaled? (s ^^ t) m n (e - f)
  | _, _ => none

/-- **The bits of `± magnitude / 2 ^ places`**, for a magnitude below `2 ^ 53` and
a quotient in the range where every significand has its leading bit. -/
def ofDyadic (negative : Bool) (magnitude places : Nat) : Binary64 :=
  if magnitude = 0 then ofPattern negative 0
  else
    let length := Nat.log2 magnitude
    ofPattern negative
      ((1022 + length - places) * pow2 52 + magnitude * pow2 (52 - length))

end Binary64

end ScaledGauss

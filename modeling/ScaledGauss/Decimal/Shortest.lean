import ScaledGauss.Decimal

/-!
# The shortest decimal text of a real

A real is written with the fewest digits that still read back as it, and of the
texts with so many digits with the nearest; a tie goes up. The notation is
positional, without an exponent, and a whole number has no point.

The reals that round to a given one form an interval, which reaches half-way to the
two neighbours and includes its ends if the significand is even. The search goes
through ever finer powers of ten, starting with the leading digit, and takes the
first on whose grid one of the two neighbours of the real lies in the interval.

## Main definitions

– `ScaledGauss.Shortest.Interval`: a real and the reals that round to it;
– `ScaledGauss.Shortest.digitsAt?`: the best number of units of a power of ten;
– `ScaledGauss.Binary64.text`: the text of a real.
-/

namespace ScaledGauss

namespace Shortest

/-- **A positive real and the reals that round to it**, in units of
`2 ^ exponent`. -/
structure Interval where
  /-- The lower end. -/
  lower : Nat
  /-- The real itself. -/
  value : Nat
  /-- The upper end. -/
  upper : Nat
  /-- The unit, as a power of two. -/
  exponent : Int
  /-- Whether the ends belong to the interval. -/
  closed : Bool

/-- The interval of `significand * 2 ^ exponent`, in quarters of the last place.
Below a power of two the neighbour is only half as far away. -/
def Interval.around (significand : Nat) (exponent : Int) : Interval where
  lower := 4 * significand - (if significand = pow2 52 ∧ -1074 < exponent then 1 else 2)
  value := 4 * significand
  upper := 4 * significand + 2
  exponent := exponent - 2
  closed := significand % 2 = 0

/-- Whether a multiple of `2 ^ exponent` lies in the interval. -/
def Interval.contains (i : Interval) (scale x : Nat) : Bool :=
  if i.closed then i.lower * scale ≤ x ∧ x ≤ i.upper * scale
  else i.lower * scale < x ∧ x < i.upper * scale

/-- **The best number of units of `10 ^ power`**: of the two neighbours of the real
on that grid the one in the interval, of two such ones the nearer, and in a tie the
greater. The grid must not be so coarse that the lower neighbour is zero. -/
def digitsAt? (i : Interval) (power : Int) : Option Nat :=
  let scale := pow2 i.exponent.toNat * pow10 (-power).toNat
  let unit := pow10 power.toNat * pow2 (-i.exponent).toNat
  let value := i.value * scale
  let below := value / unit
  let above := below + 1
  let belowFits := i.contains scale (below * unit)
  let aboveFits := i.contains scale (above * unit)
  if below = 0 then none
  else if belowFits ∧ aboveFits then
    some (if 2 * (value % unit) < unit then below else above)
  else if belowFits then some below
  else if aboveFits then some above
  else none

/-- The powers of ten that may be tried, from the coarsest: the largest reals have
309 digits before the point, and seventeen digits always are enough. -/
def powers : List Int := (List.range 660).map fun i : Nat => 308 - (i : Int)

/-- **The shortest digits** of a positive real, with their power of ten. -/
def digits (significand : Nat) (exponent : Int) : Nat × Int :=
  let interval := Interval.around significand exponent
  (powers.findSome? fun power =>
    (digitsAt? interval power).map fun digits => (digits, power)).getD (0, 0)

/-- The digits of a natural number. -/
def numeral (n : Nat) : List Char := Nat.toDigits 10 n

/-- A fraction without its trailing zeros, after a point if anything is left. -/
def fractionText (fraction : List Char) : List Char :=
  match (fraction.reverse.dropWhile (· = '0')).reverse with
  | [] => []
  | kept => '.' :: kept

/-- **Positional notation** of `digits * 10 ^ power`. -/
def positional (digits : Nat) (power : Int) : List Char :=
  if 0 ≤ power then numeral digits ++ List.replicate power.toNat '0'
  else
    let places := (-power).toNat
    let scale := pow10 places
    let fraction := numeral (digits % scale)
    numeral (digits / scale) ++
      fractionText (List.replicate (places - fraction.length) '0' ++ fraction)

end Shortest

/-- **The text of a real**: its shortest digits in positional notation. -/
def Binary64.text (x : Binary64) : String :=
  let signed (negative : Bool) (s : String) : String := if negative then "-" ++ s else s
  match x.denote with
  | .undefined => "NaN"
  | .infinite negative => signed negative "inf"
  | .finite negative significand exponent =>
    if significand = 0 then signed negative "0"
    else
      let (digits, power) := Shortest.digits significand exponent
      signed negative (String.ofList (Shortest.positional digits power))

end ScaledGauss

/-!
# The nearest whole number

A fraction of natural numbers rounded to the nearest whole number, with the two
rules for a tie that this library needs.

## Main definitions

– `ScaledGauss.nearestEven`: a tie goes to the even neighbour;
– `ScaledGauss.nearestUp`: a tie goes up.
-/

namespace ScaledGauss

/-- The whole number nearest to `num / den`, a tie going to the even one. -/
def nearestEven (num den : Nat) : Nat :=
  let quotient := num / den
  let twice := 2 * (num % den)
  if den < twice ∨ (twice = den ∧ quotient % 2 = 1) then quotient + 1 else quotient

/-- The whole number nearest to `num / den`, a tie going up. -/
def nearestUp (num den : Nat) : Nat := (2 * num + den) / (2 * den)

end ScaledGauss

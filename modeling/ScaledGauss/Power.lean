/-!
# Powers of two and of ten

Scales, ranges and places are powers of two or of ten with a natural exponent.

## Main definitions

– `ScaledGauss.pow2`, `ScaledGauss.pow10`: the powers.
-/

namespace ScaledGauss

/-- The power of two with a given exponent. -/
def pow2 (k : Nat) : Nat := Nat.pow 2 k

/-- The power of ten with a given exponent. -/
def pow10 (k : Nat) : Nat := Nat.pow 10 k

@[simp] theorem pow2_zero : pow2 0 = 1 := rfl

theorem pow2_succ (k : Nat) : pow2 (k + 1) = 2 * pow2 k := Nat.mul_comm _ _

theorem pow2_add (k l : Nat) : pow2 (k + l) = pow2 k * pow2 l := Nat.pow_add 2 k l

theorem pow2_pos (k : Nat) : 0 < pow2 k := Nat.pow_pos Nat.zero_lt_two

end ScaledGauss

import ScaledGauss.Error
import ScaledGauss.Power

/-!
# Integers in words of bounded width

Intermediate results live in signed words: products and widened numerators in 64
bits, exact sums of products in 128. An operation here has the mathematical
result if that result fits the word, and is a fault otherwise; nothing wraps and
nothing is cut. A computation written in these operations therefore either never
leaves its words or says so.

## Main definitions

– `ScaledGauss.Word.Fits`: the range of a signed word;
– `ScaledGauss.Word.fit`: an integer as a word, or a fault;
– `ScaledGauss.Word.add`, `sub`, `mul`, `abs`, `shiftLeft`, `shiftRight`, `quot`,
  `rem`: exact operations on words of a given width;
– `ScaledGauss.Word.size`: a natural number as an unsigned 64-bit size.
-/

namespace ScaledGauss

namespace Word

/-- The integers that a signed word of `w` bits holds. -/
def Fits (w : Nat) (z : Int) : Prop := -(pow2 (w - 1) : Int) ≤ z ∧ z < pow2 (w - 1)

instance (w : Nat) (z : Int) : Decidable (Fits w z) :=
  inferInstanceAs (Decidable (_ ∧ _))

/-- **An integer as a word** of `w` bits, if it fits. -/
def fit (w : Nat) (z : Int) : Except Error Int :=
  if Fits w z then .ok z else .error (.fault .wordOverflow)

theorem fit_eq_ok {w : Nat} {z : Int} (h : Fits w z) : fit w z = .ok z :=
  if_pos h

theorem fit_eq_ok_iff {w : Nat} {z y : Int} : fit w z = .ok y ↔ Fits w z ∧ z = y := by
  by_cases h : Fits w z <;> simp [fit, h]

/-- The sum, if it fits. -/
def add (w : Nat) (a b : Int) : Except Error Int := fit w (a + b)

/-- The difference, if it fits. -/
def sub (w : Nat) (a b : Int) : Except Error Int := fit w (a - b)

/-- The product, if it fits. -/
def mul (w : Nat) (a b : Int) : Except Error Int := fit w (a * b)

/-- The magnitude, if it fits: the least word has none. -/
def abs (w : Nat) (a : Int) : Except Error Int := fit w a.natAbs

/-- The shift to the left, which multiplies by a power of two. -/
def shiftLeft (w : Nat) (a : Int) (places : Nat) : Except Error Int :=
  if places < w then fit w (a * pow2 places) else .error (.fault .shiftTooWide)

/-- The arithmetic shift to the right, which divides by a power of two and rounds
toward negative infinity. -/
def shiftRight (w : Nat) (a : Int) (places : Nat) : Except Error Int :=
  if places < w then .ok (a / pow2 places) else .error (.fault .shiftTooWide)

/-- The quotient, rounded toward zero. -/
def quot (w : Nat) (a b : Int) : Except Error Int :=
  if b = 0 then .error (.fault .zeroDivisor) else fit w (a.tdiv b)

/-- The remainder that belongs to the quotient rounded toward zero; where that
quotient is a fault, so is the remainder. -/
def rem (w : Nat) (a b : Int) : Except Error Int := do
  let _ ← quot w a b
  return a.tmod b

/-- **A size**: a natural number below `2 ^ 64`. -/
def size (n : Nat) : Except Error Nat :=
  if n < pow2 64 then .ok n else .error (.fault .wordOverflow)

end Word

end ScaledGauss

import ScaledGauss.Error
import ScaledGauss.Power
import ScaledGauss.Scaled

/-!
# Fixed-point formats

A format says how raw values are read and how results are made to fit: a binary
scale, a rounding of what falls below one raw unit, and a policy for what falls
outside the 32-bit range. The scale is bounded in the type, so every format in
hand has at most `ScaledGauss.maxFracBits` fractional bits.

## Main definitions

– `ScaledGauss.Rounding`, `ScaledGauss.Overflow`: the two policies, with their
  names;
– `ScaledGauss.Format`: a scale with its policies;
– `ScaledGauss.Format.withFracBits`: the same policies at another scale, if that
  scale is supported;
– `ScaledGauss.Format.one`: the raw value of the number one.
-/

namespace ScaledGauss

/-! ### Policies -/

/-- What becomes of the part of a result below one raw unit. -/
inductive Rounding
  /-- Products round toward negative infinity, quotients toward zero. -/
  | truncate
  /-- The nearest raw value, a half going away from zero. -/
  | nearest
deriving DecidableEq

/-- What becomes of a result outside the 32-bit range. -/
inductive Overflow
  /-- It is reduced modulo `2 ^ 32`. -/
  | wrapping
  /-- It is cut to the nearest end of the range. -/
  | saturating
  /-- It is refused. -/
  | checked
deriving DecidableEq

/-- The name of a rounding in stored text and on the command line. -/
def Rounding.name : Rounding → String
  | .truncate => "truncate"
  | .nearest => "nearest"

/-- The rounding of a given name. -/
def Rounding.ofName? (s : String) : Option Rounding :=
  if s = "truncate" then some .truncate
  else if s = "nearest" then some .nearest
  else none

/-- The name of an overflow policy in stored text and on the command line. -/
def Overflow.name : Overflow → String
  | .wrapping => "wrapping"
  | .saturating => "saturating"
  | .checked => "checked"

/-- The overflow policy of a given name. -/
def Overflow.ofName? (s : String) : Option Overflow :=
  if s = "wrapping" then some .wrapping
  else if s = "saturating" then some .saturating
  else if s = "checked" then some .checked
  else none

@[simp] theorem Rounding.ofName?_name (r : Rounding) : ofName? r.name = some r := by
  cases r <;> rfl

@[simp] theorem Overflow.ofName?_name (o : Overflow) : ofName? o.name = some o := by
  cases o <;> rfl

/-! ### Formats -/

/-- **A fixed-point format**: under it the raw value `r` stands for the number
`r / 2 ^ fracBits`. -/
structure Format where
  /-- The number of fractional bits. -/
  fracBits : Nat
  /-- What becomes of the part of a result below one raw unit. -/
  rounding : Rounding
  /-- What becomes of a result outside the 32-bit range. -/
  overflow : Overflow
  /-- The scale is a supported one. -/
  fracBits_le : fracBits ≤ maxFracBits := by decide
deriving DecidableEq

namespace Format

/-- Sixteen fractional bits, truncating and wrapping. -/
def standard : Format where
  fracBits := 16
  rounding := .truncate
  overflow := .wrapping

/-- Plain integers: no fractional bits, truncating and wrapping. -/
def integer : Format where
  fracBits := 0
  rounding := .truncate
  overflow := .wrapping

/-- The same policies at another scale, if that scale is supported. -/
def withFracBits (f : Format) (fracBits : Nat) : Except Error Format :=
  if h : fracBits ≤ maxFracBits then
    .ok { f with fracBits := fracBits, fracBits_le := h }
  else
    .error (.unsupportedScale fracBits)

/-- The same format with another rounding. -/
def withRounding (f : Format) (rounding : Rounding) : Format :=
  { f with rounding := rounding }

/-- The same format with another overflow policy. -/
def withOverflow (f : Format) (overflow : Overflow) : Format :=
  { f with overflow := overflow }

/-- The truncating and wrapping format of a given scale. -/
def ofFracBits (fracBits : Nat) : Except Error Format :=
  standard.withFracBits fracBits

/-- The raw value of the number one. -/
def one (f : Format) : Scaled := .wrap (pow2 f.fracBits)

end Format

end ScaledGauss

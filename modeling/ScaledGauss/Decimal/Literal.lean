import ScaledGauss.Decimal

/-!
# Real literals

The reals that can be typed: an optional sign, then either a word for an infinity
or for what is not a number, in letters of any case, or digits with an optional
point among them – before, after or between – and an optional exponent. There must
be a digit before the exponent, and one in it.

## Main definitions

– `ScaledGauss.Decimal.ofText?`: the value of a literal in digits;
– `ScaledGauss.Binary64.ofLiteral?`: the real that a literal stands for.
-/

namespace ScaledGauss

/-- A sign at the front, and what follows it. -/
def splitSign : List Char → Bool × List Char
  | '+' :: rest => (false, rest)
  | '-' :: rest => (true, rest)
  | cs => (false, cs)

/-- The digits at the front, and what follows them. -/
def splitDigits (cs : List Char) : List Nat × List Char :=
  match cs with
  | [] => ([], [])
  | c :: rest =>
    match digit? c with
    | some d => (d :: (splitDigits rest).1, (splitDigits rest).2)
    | none => ([], c :: rest)

namespace Decimal

/-- An exponent, up to the end of the literal; none is the exponent zero. -/
def exponentOf? : List Char → Option Int
  | [] => some 0
  | c :: rest =>
    if c = 'e' ∨ c = 'E' then
      let (negative, rest) := splitSign rest
      match splitDigits rest with
      | (d :: digits, []) =>
        let power : Int := digitsValue 0 (d :: digits)
        some (if negative then -power else power)
      | _ => none
    else none

/-- The digits after a point, if there is a point, and what follows. -/
def splitFraction : List Char → List Nat × List Char
  | '.' :: rest => splitDigits rest
  | cs => ([], cs)

/-- **The value of a literal in digits**, the sign apart. -/
def ofText? (negative : Bool) (cs : List Char) : Option Decimal :=
  let (whole, rest) := splitDigits cs
  let (fraction, rest) := splitFraction rest
  if whole = [] ∧ fraction = [] then none
  else
    match exponentOf? rest with
    | some exponent =>
      some ⟨negative, digitsValue 0 (whole ++ fraction), exponent - fraction.length⟩
    | none => none

end Decimal

/-- **The real that a literal stands for**: the nearest one, an infinity if the
literal exceeds every finite one. -/
def Binary64.ofLiteral? (s : String) : Option Binary64 :=
  let (negative, rest) := splitSign s.toList
  let word := String.ofList (rest.map Char.toLower)
  if word = "inf" ∨ word = "infinity" then some (.infinity negative)
  else if word = "nan" then some .nan
  else (Decimal.ofText? negative rest).map Decimal.toBinary64

end ScaledGauss

import ScaledGauss.Elimination

/-!
# Back substitution

An upper-triangular system is solved from its last row up. The last unknown is the
quotient of the last right-hand side by the last diagonal entry; every other one
takes the products of the unknowns below it with the coefficients of its row, sums
them, subtracts the sum from the right-hand side and divides by the diagonal entry.
Only the diagonal and what stands above it are read.

## Main definitions

– `ScaledGauss.Augmented.weightedSum`: the sum of a row over the unknowns found;
– `ScaledGauss.Augmented.dividend`: what is divided by the diagonal entry;
– `ScaledGauss.Augmented.backSubstitute`: the whole substitution.
-/

namespace ScaledGauss

namespace Augmented

variable {n : Nat} {σ : Type}

/-- The sum of row `i` over the unknowns below it, from the left, one product and
one addition at a time. -/
def weightedSum (held : σ) (zero : Scaled) (a : Augmented n) (x : Column n) (i : Fin n) :
    Plan σ Scaled :=
  (rowsBelow i).foldlM (fun sum j => do
    let product ← .consult held .multiply (x.get j) (a.entry i j.castSucc)
    .consult held .add sum product) zero

/-- What is divided by the diagonal entry of row `i`: in the last row the right-hand
side as it is, in every other row the right-hand side less the weighted sum. -/
def dividend (held : σ) (zero : Scaled) (a : Augmented n) (x : Column n) (i : Fin n) :
    Plan σ Scaled :=
  if i.val + 1 = n then return a.rhs.get i
  else do
    let sum ← a.weightedSum held zero x i
    .consult held .subtract (a.rhs.get i) sum

/-- Unknown `i`, entered among those found. -/
def substitute (held : σ) (zero : Scaled) (a : Augmented n) (x : Column n) (i : Fin n) :
    Plan σ (Column n) := do
  let dividend ← a.dividend held zero x i
  let unknown ← .consult held .divide dividend (a.entry i i.castSucc)
  return x.set i.val unknown i.isLt

/-- **Back substitution**: the unknowns from the last to the first. Nothing is
changed on the way, so the state held is the same at every call. -/
def backSubstitute (held : σ) (zero : Scaled) (a : Augmented n) : Plan σ (Column n) :=
  (List.finRange n).reverse.foldlM (a.substitute held zero) (.replicate n zero)

/-- **The solution of a system**: elimination, then back substitution. -/
def solve (one zero : Scaled) (a : Augmented n) : Plan (Stage n) (Stage n × Column n) := do
  let S ← a.eliminate one zero
  let x ← S.system.backSubstitute S zero
  return (S, x)

end Augmented

end ScaledGauss

import ScaledGauss.Solve

/-!
# The solve with every access guarded

`ScaledGauss.Config.solve` indexes its tables by numbers that are in range by their type,
and takes a row for the next one without asking whether there is a next number. This file
writes the solve once more in the terms of a machine that promises nothing: matrix and
right-hand side are kept apart, an index is any natural number and is **checked** at every
access, a size is checked whenever it is formed, and so is every word, down to the shift
that makes the constant one. Whatever fails a check is a fault
(`ScaledGauss.Fault`) and ends the program.

The loops are the plain ones, over the numbers from one bound up to another
(`ScaledGauss.Guarded.span`): the steps stop before the last row, two rows are exchanged
entry by entry, and the unknowns are found from the last but one down to the first. The
program therefore says where the solve could leave its machine; that it computes what the
solve computes is shown in `ScaledGauss.Proofs.Guarded.Safety`.

## Main definitions

– `ScaledGauss.Guarded.entry`, `setEntry`, `get`, `set`: guarded accesses;
– `ScaledGauss.Guarded.apply`, `ScaledGauss.Guarded.one`: the arithmetic of a format in
  guarded words;
– `ScaledGauss.Guarded.eliminate`, `backSubstitute`, `residual`, `solve`: the program.
-/

namespace ScaledGauss

namespace Guarded

/-! ### Sizes and accesses -/

/-- The difference of two sizes, if it is one. -/
def less (a b : Nat) : Except Error Nat :=
  if b ≤ a then .ok (a - b) else .error (.fault .wordOverflow)

/-- The numbers from `start` up to `stop`, without `stop`. -/
def span (start stop : Nat) : List Nat := List.range' start (stop - start)

section Accesses

variable {r c n : Nat}

/-- The entry in row `i` and column `j`, if there is one. -/
def entry (g : Grid r c) (i j : Nat) : Except Error Scaled :=
  if h : i < r ∧ j < c then .ok (g.entry ⟨i, h.1⟩ ⟨j, h.2⟩)
  else .error (.fault .indexOutOfRange)

/-- The entry in row `i` and column `j` replaced, if there is one. -/
def setEntry (g : Grid r c) (i j : Nat) (a : Scaled) : Except Error (Grid r c) :=
  if h : i < r ∧ j < c then .ok (g.setEntry ⟨i, h.1⟩ ⟨j, h.2⟩ a)
  else .error (.fault .indexOutOfRange)

/-- The value at place `i` of a column, if there is one. -/
def get (x : Column n) (i : Nat) : Except Error Scaled :=
  if h : i < n then .ok (x.get ⟨i, h⟩) else .error (.fault .indexOutOfRange)

/-- The value at place `i` of a column replaced, if there is one. -/
def set (x : Column n) (i : Nat) (a : Scaled) : Except Error (Column n) :=
  if h : i < n then .ok (x.set i a h) else .error (.fault .indexOutOfRange)

end Accesses

/-! ### The arithmetic -/

/-- A product of two raw values, divided by the scale. A half is added to a product that is
not negative and taken from below otherwise, so that it goes away from zero. -/
def roundProduct (f : Format) (product : Int) : Except Error Int :=
  match f.rounding with
  | .truncate => Word.shiftRight 64 product f.fracBits
  | .nearest =>
    if f.fracBits = 0 then .ok product
    else do
      let half ← Word.shiftLeft 64 1 (← less f.fracBits 1)
      if 0 ≤ product then
        Word.shiftRight 64 (← Word.add 64 product half) f.fracBits
      else
        let magnitude ← Word.shiftRight 64 (← Word.sub 64 half product) f.fracBits
        Word.sub 64 0 magnitude

/-- A quotient of two words. -/
def roundQuotient (f : Format) (numerator denominator : Int) : Except Error Int := do
  let quotient ← Word.quot 64 numerator denominator
  match f.rounding with
  | .truncate => return quotient
  | .nearest =>
    let remainder ← Word.rem 64 numerator denominator
    let doubled ← Word.mul 64 2 (← Word.abs 64 remainder)
    if (← Word.abs 64 denominator) ≤ doubled then
      Word.add 64 quotient (← Word.mul 64 numerator.sign denominator.sign)
    else
      return quotient

/-- **The four operations**, in words of 64 bits. -/
def apply (f : Format) (op : Op) (a b : Scaled) : Except Error Scaled :=
  match op with
  | .multiply => do
    let product ← Word.mul 64 a.val b.val
    f.narrow op.name (← roundProduct f product)
  | .divide =>
    if b.isZero then f.divideByZero a
    else do
      let numerator ← Word.shiftLeft 64 a.val f.fracBits
      f.narrow op.name (← roundQuotient f numerator b.val)
  | .add => do f.narrow op.name (← Word.add 64 a.val b.val)
  | .subtract => do f.narrow op.name (← Word.sub 64 a.val b.val)

/-- **The constant one**, by a shift in a word of 32 bits. -/
def one (f : Format) : Except Error Scaled := return .wrap (← Word.shiftLeft 32 1 f.fracBits)

/-! ### The elimination -/

section Elimination

variable {n : Nat}

/-- The identity matrix, its diagonal entered one by one. -/
def identity (f : Format) (n : Nat) : Except Error (Grid n n) :=
  (span 0 n).foldlM (fun m i => do setEntry m i i (← one f)) (.ofEntries fun _ _ => .zero)

/-- **The memory of an elimination.** -/
structure Memory (n : Nat) where
  /-- The matrix as it is now. -/
  matrix : Grid n n
  /-- The right-hand side as it is now. -/
  rhs : Column n
  /-- The multipliers. -/
  lower : Grid n n
  /-- The exchanges made so far, in order. -/
  swaps : List Swap

/-- The entries of rows `i` and `k` in column `j` exchanged. -/
def swapColumn (i k : Nat) (m : Grid n n) (j : Nat) : Except Error (Grid n n) := do
  let upper ← entry m i j
  let lower ← entry m k j
  setEntry (← setEntry m i j lower) k j upper

/-- Rows `i` and `k` exchanged from a column onward, and the right-hand sides with them. -/
def exchange (M : Memory n) (i k start : Nat) : Except Error (Memory n) :=
  if i = k then return M
  else do
    let matrix ← (span start n).foldlM (swapColumn i k) M.matrix
    let upper ← get M.rhs i
    let lower ← get M.rhs k
    let rhs ← set (← set M.rhs i lower) k upper
    return { M with matrix := matrix, rhs := rhs }

/-- One comparison of the scan at step `i`. -/
def compare (i : Nat) (M : Memory n) (k : Nat) : Except Error (Memory n) := do
  if (← entry M.matrix i i) < (← entry M.matrix k i) then
    let M ← exchange M i k i
    return { M with swaps := M.swaps ++ [⟨i, k⟩] }
  else
    return M

/-- The entry of row `k` in column `j`, less the multiple of the pivot row's. -/
def reduceEntry (f : Format) (i k : Nat) (factor : Scaled) (M : Memory n) (j : Nat) :
    Except Error (Memory n) := do
  let product ← apply f .multiply factor (← entry M.matrix i j)
  let difference ← apply f .subtract (← entry M.matrix k j) product
  return { M with matrix := ← setEntry M.matrix k j difference }

/-- The right-hand side of row `k`, less the multiple of the pivot row's. -/
def reduceRhs (f : Format) (i k : Nat) (factor : Scaled) (M : Memory n) :
    Except Error (Memory n) := do
  let product ← apply f .multiply factor (← get M.rhs i)
  let difference ← apply f .subtract (← get M.rhs k) product
  return { M with rhs := ← set M.rhs k difference }

/-- The reduction of row `k` by the pivot row `i`. -/
def reduceRow (f : Format) (i : Nat) (pivot : Scaled) (M : Memory n) (k : Nat) :
    Except Error (Memory n) := do
  let factor ← apply f .divide (← entry M.matrix k i) pivot
  let lower ← setEntry M.lower k i factor
  let M ← (span i n).foldlM (reduceEntry f i k factor) { M with lower := lower }
  reduceRhs f i k factor M

/-- Step `i`: the scan of the rows below, then their reduction. -/
def step (f : Format) (M : Memory n) (i : Nat) : Except Error (Memory n) := do
  let M ← (span (← Word.size (i + 1)) n).foldlM (compare i) M
  let pivot ← entry M.matrix i i
  (span (← Word.size (i + 1)) n).foldlM (reduceRow f i pivot) M

/-- **The elimination.** The number of steps is one less than that of the rows, so there have
to be rows. -/
def eliminate (f : Format) (m : Grid n n) (b : Column n) : Except Error (Memory n) :=
  if n = 0 then .error .emptySystem
  else do
    let lower ← identity f n
    (span 0 (← less n 1)).foldlM (step f) ⟨m, b, lower, []⟩

end Elimination

/-! ### The unknowns and the residual -/

section Unknowns

variable {n : Nat}

/-- The sum of row `i` over the unknowns after it. -/
def weightedSum (f : Format) (m : Grid n n) (x : Column n) (i : Nat) : Except Error Scaled := do
  (span (← Word.size (i + 1)) n).foldlM (fun sum j => do
    let product ← apply f .multiply (← get x j) (← entry m i j)
    apply f .add sum product) .zero

/-- Unknown `i`, which has others after it. -/
def substitute (f : Format) (m : Grid n n) (b : Column n) (x : Column n) (i : Nat) :
    Except Error (Column n) := do
  let sum ← weightedSum f m x i
  let dividend ← apply f .subtract (← get b i) sum
  set x i (← apply f .divide dividend (← entry m i i))

/-- **Back substitution**: the last unknown, then the others up to the first. -/
def backSubstitute (f : Format) (m : Grid n n) (b : Column n) : Except Error (Column n) :=
  if n = 0 then .error .emptySystem
  else do
    let last ← less n 1
    let unknown ← apply f .divide (← get b last) (← entry m last last)
    let x ← set (.replicate n .zero) last unknown
    (span 0 last).reverse.foldlM (substitute f m b) x

/-- The exact sum of row `i` from the diagonal on, in a word of 128 bits. -/
def rowSum (m : Grid n n) (x : Column n) (i : Nat) : Except Error Int :=
  (span i n).foldlM (fun sum j => do
    let coefficient ← entry m i j
    let unknown ← get x j
    Word.add 128 sum (← Word.mul 128 coefficient.val unknown.val)) 0

/-- The difference in row `i` between its sum over the scale and the right-hand side. -/
def rowGap (f : Format) (m : Grid n n) (x b : Column n) (i : Nat) : Except Error Nat := do
  let scaled ← Word.shiftRight 128 (← rowSum m x i) f.fracBits
  let difference ← Word.sub 128 scaled (← get b i).val
  return difference.natAbs

/-- **The residual.** -/
def residual (f : Format) (m : Grid n n) (x b : Column n) : Except Error Nat := do
  let gaps ← (span 0 n).mapM (rowGap f m x b)
  return Nat.min Grid.residualLimit (gaps.foldl Nat.max 0)

end Unknowns

/-- **The solve**, with every access guarded. -/
def solve (c : Config) (matrix rhs : Array Scaled) : Except Error Report := do
  c.validate
  let m ← Grid.ofFlat c.dimension matrix
  let b ← columnOfFlat c.dimension rhs
  let M ← eliminate c.format m b
  let x ← backSubstitute c.format M.matrix M.rhs
  let residual ← residual c.format M.matrix x M.rhs
  return {
    n := c.dimension
    upper := M.matrix
    rhs := M.rhs
    lower := M.lower
    swaps := M.swaps
    solution := x
    residual := residual }

end Guarded

end ScaledGauss

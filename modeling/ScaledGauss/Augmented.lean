import ScaledGauss.Grid

/-!
# Augmented matrices

A square system is kept as its augmented matrix: the right-hand side is one more
column. Whatever is done to a row – exchanging it with another, subtracting a
multiple of another from it – is then done to the whole equation by one rule.

## Main definitions

– `ScaledGauss.Augmented`: a system of `n` equations in `n` unknowns;
– `ScaledGauss.Augmented.join`, `ScaledGauss.Augmented.matrix`,
  `ScaledGauss.Augmented.rhs`: putting a system together and taking it apart.
-/

namespace ScaledGauss

/-- **A square system** of `n` equations, the right-hand side in the last column. -/
abbrev Augmented (n : Nat) := Grid n (n + 1)

namespace Augmented

variable {n : Nat}

/-- The system with a given matrix and a given right-hand side. -/
def join (m : Grid n n) (b : Column n) : Augmented n :=
  .ofEntries fun i j => if h : j.val < n then m.entry i ⟨j, h⟩ else b.get i

/-- The coefficients. -/
def matrix (a : Augmented n) : Grid n n := .ofEntries fun i j => a.entry i j.castSucc

/-- The right-hand side. -/
def rhs (a : Augmented n) : Column n := .ofFn fun i => a.entry i (Fin.last n)

theorem get_rhs (a : Augmented n) (i : Fin n) : a.rhs.get i = a.entry i (Fin.last n) := by
  simp [rhs, vector_get]

@[simp] theorem matrix_join (m : Grid n n) (b : Column n) : (join m b).matrix = m := by
  ext i j
  simp [matrix, join]

@[simp] theorem rhs_join (m : Grid n n) (b : Column n) : (join m b).rhs = b := by
  apply Vector.ext
  intro i hi
  simp [rhs, join, vector_get]

@[simp] theorem join_matrix_rhs (a : Augmented n) : join a.matrix a.rhs = a := by
  ext i j
  by_cases h : j.val < n
  · simp [join, matrix, h]
  · have hj : j = Fin.last n := Fin.ext (by have := j.isLt; simp; omega)
    subst hj
    simp [join, rhs, vector_get]

end Augmented

end ScaledGauss

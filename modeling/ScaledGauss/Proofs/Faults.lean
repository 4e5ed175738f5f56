import ScaledGauss.Proofs.Policies

/-!
# When a solve leaves the machine

A solve works in words of bounded width, and where a result does not fit its word the run is
abandoned. This file says when that happens: exactly when the square of the dimension is not a
size, which is to say from `2 ^ 32` unknowns on, whatever the data
(`ScaledGauss.Config.outcome_solve_of_le`). Everything else that can go wrong in a solve is
reported (`ScaledGauss.Config.ofSolve_of_outcome_error`): there are no equations, the data has
not the right size, or the arithmetic of the format refuses an answer.
-/

namespace ScaledGauss

/-- **The errors that a solve reports.** -/
inductive Error.OfSolve : Error → Prop
  /-- There are no equations. -/
  | emptySystem : OfSolve .emptySystem
  /-- The data has not the size that the dimension asks for. -/
  | dimensionMismatch (part : Part) (expected got : Nat) :
      OfSolve (.dimensionMismatch part expected got)
  /-- A division by zero. -/
  | divisionByZero : OfSolve .divisionByZero
  /-- A result out of range in one of the four operations. -/
  | overflow (op : Op) : OfSolve (.overflow op.name)

theorem Error.OfSolve.ne_fault {e : Error} (h : e.OfSolve) (f : Fault) : e ≠ .fault f := by
  cases h <;> exact nofun

/-- The square of a dimension is a size exactly below `2 ^ 32`. -/
theorem Word.size_square (n : Nat) :
    Word.size (n * n) = if n < pow2 32 then .ok (n * n) else .error (.fault .wordOverflow) := by
  have hlt : n * n < pow2 64 ↔ n < pow2 32 := by
    rw [show pow2 64 = pow2 32 * pow2 32 from rfl]
    exact Nat.mul_self_lt_mul_self_iff
  simp only [size, hlt]

namespace Config

variable {c : Config} {matrix rhs : Array Scaled}

/-- **From `2 ^ 32` unknowns on a solve is abandoned**, before it looks at its data. -/
theorem outcome_solve_of_le (h : pow2 32 ≤ c.dimension) :
    (c.solve matrix rhs).outcome = .error (.fault .wordOverflow) := by
  have hpos : c.dimension ≠ 0 := ((pow2_pos 32).trans_le h).ne'
  rw [outcome_solve, assemble, validate, if_neg hpos, ok_bind, Grid.ofFlat, if_neg hpos,
    Word.size_square, if_neg (Nat.not_lt.mpr h)]
  rfl

/-- **Below `2 ^ 32` unknowns** data is assembled, or refused for its size. -/
theorem assemble_cases (h : c.dimension < pow2 32) (matrix rhs : Array Scaled) :
    c.Describes matrix rhs ∨ ∃ e, c.assemble matrix rhs = .error e ∧ e.OfSolve := by
  by_cases hpos : c.dimension = 0
  · refine .inr ⟨_, ?_, .emptySystem⟩
    rw [assemble, validate, if_pos hpos]
    rfl
  · have hassemble : c.assemble matrix rhs = (Grid.ofFlat c.dimension matrix >>= fun m =>
        columnOfFlat c.dimension rhs >>= fun b => .ok (.join m b)) := by
      rw [assemble, validate, if_neg hpos, ok_bind]
      rfl
    have hsquare : Word.size (c.dimension * c.dimension) = .ok (c.dimension * c.dimension) := by
      rw [Word.size_square, if_pos h]
    rw [hassemble, Grid.ofFlat, if_neg hpos, hsquare, ok_bind]
    by_cases hmatrix : matrix.size = c.dimension * c.dimension
    · by_cases hrhs : rhs.size = c.dimension
      · have hlt : matrix.size < pow2 64 := by
          rw [hmatrix, show pow2 64 = pow2 32 * pow2 32 from rfl]
          exact Nat.mul_self_lt_mul_self h
        exact .inl ⟨Nat.pos_of_ne_zero hpos, hmatrix, hlt, hrhs⟩
      · rw [dif_pos hmatrix, columnOfFlat, dif_neg hrhs]
        exact .inr ⟨_, rfl, .dimensionMismatch _ _ _⟩
    · rw [dif_neg hmatrix]
      exact .inr ⟨_, rfl, .dimensionMismatch _ _ _⟩

/-- **Below `2 ^ 32` unknowns** whatever goes wrong in a solve is reported. -/
theorem ofSolve_of_outcome_error (h : c.dimension < pow2 32) {e : Error}
    (he : (c.solve matrix rhs).outcome = .error e) : e.OfSolve := by
  rcases c.assemble_cases h matrix rhs with hdata | ⟨e', he', hreported⟩
  · obtain ⟨op, left, right, hrefused⟩ := hdata.refusal_of_error he
    rcases Format.cause_of_refusal hrefused with ⟨rfl, -⟩ | ⟨rfl, -⟩
    · exact .divisionByZero
    · exact .overflow op
  · rw [outcome_solve, he'] at he
    cases he
    exact hreported

/-- **When a solve leaves the machine.** -/
theorem outcome_solve_fault_iff (c : Config) (matrix rhs : Array Scaled) :
    (∃ f, (c.solve matrix rhs).outcome = .error (.fault f)) ↔ pow2 32 ≤ c.dimension := by
  constructor
  · rintro ⟨f, hf⟩
    by_contra h
    exact (ofSolve_of_outcome_error (Nat.not_le.mp h) hf).ne_fault f rfl
  · intro h
    exact ⟨.wordOverflow, outcome_solve_of_le h⟩

end Config

end ScaledGauss

import Mathlib.LinearAlgebra.Matrix.Nondegenerate
import ScaledGauss.Proofs.Exact.Elimination
import ScaledGauss.Proofs.RowSums

/-!
# Exact runs solve the system exactly

If every call of a solve is exact, from the first quotient of the elimination to the last
one of the back substitution, then nothing was approximate: the unknowns satisfy the
equations of the system at the start as integers, the matrix is nonsingular, so that they
are the only ones that do, the residual is zero, and the run would have been the same under
every other policy of the same scale (`ScaledGauss.Format.exact_solve`).

Back substitution adds to `ScaledGauss.Proofs.Exact.Elimination` that the triangular
system is satisfied row by row (`ScaledGauss.Augmented.dot_rowTerms_of_found`) and that no
diagonal entry is zero. The residual is computed in words, and here no bound on the size of
the system is needed for them to be wide enough: what has been added up after some columns
is one product and a whole multiple of the scale, and the multiple is a raw value.
-/

namespace ScaledGauss

open Plan

variable {n : Nat} {scale : Nat}

/-! ### Rows of a back substitution -/

/-- An exact law has no slack and leaves no remainder. -/
theorem Law.precise_exact (scale : Nat) : (Law.exact scale).Precise scale 0 fun _ => 0 where
  add h := h
  subtract h := h
  multiply {p q r} h := by
    have hr : r.val * scale = p.val * q.val := h
    rw [← hr, mul_comm, sub_self, Int.natAbs_zero]
  divide {p q r} h := by
    have hr : r.val * q.val = p.val * scale := h.2
    rw [mul_comm, ← hr, mul_comm, sub_self, Int.natAbs_zero]

namespace Augmented

variable {σ : Type} {held : σ} {zero : Scaled} {a : Augmented n} {x : Column n} {i : Fin n}

/-- **An exact unknown satisfies its row** of the triangular system, and its diagonal entry
is not zero. -/
theorem dot_rowTerms_of_found (hzero : zero.val = 0)
    (h : Found (.exact scale) held zero a x i) :
    Grid.dot (a.matrix.rowTerms x i) = scale * (a.rhs.get i).val ∧
      (a.matrix.entry i i).val ≠ 0 := by
  have hoff := dot_rowTerms_off (Law.precise_exact scale) hzero h
  have hentry : a.matrix.entry i i = a.entry i i.castSucc := Grid.entry_ofEntries _ _ _
  obtain ⟨d, -, hq, -⟩ := h
  rw [hentry]
  exact ⟨by omega, hq⟩

end Augmented

/-! ### The triangular system -/

/-- The sum of a row that is zero before its diagonal. -/
theorem Grid.sum_eq_dot_rowTerms {m : Grid n n} {k : Fin n}
    (h : ∀ j, j < k → (m.entry k j).val = 0) (x : Column n) :
    ∑ j, (m.entry k j).val * (x.get j).val = dot (m.rowTerms x k) := by
  rw [dot_rowTerms]
  -- the columns before the diagonal add nothing
  refine (Finset.sum_subset (Finset.subset_univ _) fun j _ hj => ?_).symm
  have hjk : j < k := by simpa using hj
  rw [h j hjk, zero_mul]

namespace Stage

variable {a : Augmented n} {S : Stage n} {x : Column n} {zero : Scaled}

/-- **The unknowns of an exact run solve the system at the start.** -/
theorem Echelon.balances_of_found (h : Echelon scale a n S) (hzero : zero.val = 0)
    (hx : ∀ i, Augmented.Found (.exact scale) S zero S.system x i) :
    a.Balances scale fun j => (x.get j).val := by
  refine (h.balances _).mp fun k => ?_
  have hclear : ∀ j, j < k → (S.system.matrix.entry k j).val = 0 := by
    intro j hj
    rw [Augmented.matrix, Grid.entry_ofEntries]
    exact h.cleared k j j.isLt hj
  obtain ⟨hrow, -⟩ := Augmented.dot_rowTerms_of_found hzero (hx k)
  rw [← Grid.sum_eq_dot_rowTerms hclear] at hrow
  have hrow' := congrArg (Int.cast : Int → ℚ) hrow
  rw [Augmented.miss, sub_eq_zero]
  simpa [Augmented.matrix, Augmented.rhs, vector_get] using hrow'

/-- **The matrix of an exact run is nonsingular**: the elimination ends in a triangle, and
the back substitution has divided by every entry of its diagonal. -/
theorem Echelon.det_ne_zero (h : Echelon scale a n S) (hzero : zero.val = 0)
    (hx : ∀ i, Augmented.Found (.exact scale) S zero S.system x i) :
    a.matrix.rational.det ≠ 0 := by
  have hdiag : S.system.matrix.rational.det ≠ 0 := by
    rw [h.det_upper, Finset.prod_ne_zero_iff]
    intro i _
    have hentry := (Augmented.dot_rowTerms_of_found hzero (hx i)).2
    rw [Augmented.matrix, Grid.entry_ofEntries] at hentry
    exact_mod_cast hentry
  rw [h.det] at hdiag
  exact right_ne_zero_of_mul hdiag

/-- **The residual of an exact run is zero.** -/
theorem upperResidual_of_found {fracBits : Nat} (hk : fracBits ≤ 30) (hzero : zero.val = 0)
    (hx : ∀ i, Augmented.Found (.exact (pow2 fracBits)) S zero S.system x i) :
    S.upper.upperResidual x.toList S.rhs.toList fracBits = .ok 0 := by
  have hscale : pow2 fracBits ≤ 0x40000000 := Nat.pow_le_pow_right Nat.zero_lt_two hk
  have hs : (pow2 fracBits : Int) ≠ 0 := by exact_mod_cast (pow2_pos fracBits).ne'
  have hgap : ∀ i, (Grid.dot (S.upper.rowTerms x i) / pow2 fracBits -
      (S.rhs.get i).val).natAbs = 0 := by
    intro i
    have hrow := (Augmented.dot_rowTerms_of_found hzero (hx i)).1
    rw [upper, rhs, hrow, Int.mul_ediv_cancel_left _ hs, sub_self, Int.natAbs_zero]
  have hbound : ∀ i terms, terms <+: S.upper.rowTerms x i →
      (Grid.dot terms).natAbs ≤ 0x20000000000000000000000000000000 := by
    intro i terms ht
    have := Augmented.natAbs_dot_le_of_found (Law.precise_exact _) hzero (hx i) ht
    omega
  rw [Grid.upperResidual_square (by omega) hbound]
  simp only [hgap]
  have hmax : ∀ l : List (Fin n), (l.map fun _ => 0).foldl Nat.max 0 = 0 := by
    intro l
    induction l with
    | nil => rfl
    | cons _ l ih => exact ih
  rw [hmax]
  rfl

end Stage

/-- **The recorded run of a solve** in a format. -/
def Format.solveRun (f : Format) (m : Grid n n) (b : Column n) :
    Trace Remains (Stage n × Column n) :=
  ((LinearSystem.ofAugmented (.join m b)).solve f.arithmetic.one f.arithmetic.zero).trace
    f.arithmetic

/-- **Exact runs solve the system exactly.** If a solve ends with unknowns `x` and every
call on the way was exact, then the unknowns satisfy the equations as integers, the matrix is
nonsingular, they are the only solution, the residual is zero, and the outcome is the same
under every rounding and every overflow policy of that scale. -/
theorem Format.exact_solve (f : Format) (m : Grid n n) (b : Column n) (S : Stage n)
    (x : Column n) (hrun : (f.solveRun m b).outcome = .ok (S, x))
    (hexact : ∀ c ∈ (f.solveRun m b).calls, c.Exact (pow2 f.fracBits)) :
    (∀ i, ∑ j, (m.entry i j).val * (x.get j).val = pow2 f.fracBits * (b.get i).val) ∧
    m.rational.det ≠ 0 ∧
    (∀ y : Fin n → ℚ,
      (∀ i, ∑ j, (m.entry i j).val * y j = pow2 f.fracBits * (b.get i).val) →
        y = fun j => ((x.get j).val : ℚ)) ∧
    S.upper.upperResidual x.toList S.rhs.toList f.fracBits = .ok 0 ∧
    ∀ rounding overflow,
      (((f.withRounding rounding).withOverflow overflow).solveRun m b).outcome = .ok (S, x) := by
  have hs := pow2_pos f.fracBits
  -- the run as one under the law of exact answers, which forgets the policies
  have hy := (run_eq_ok_iff 0).mp ⟨hrun, hexact⟩
  have hyields : Yields (.exact (pow2 f.fracBits))
      ((LinearSystem.ofAugmented (.join m b)).solve f.arithmetic.one f.arithmetic.zero) (S, x) :=
    hy.mono fun _ _ _ _ h => h.2
  obtain ⟨-, hsolve⟩ := LinearSystem.yields_solve_iff.mp hyields
  obtain ⟨helim, hfound⟩ := Augmented.yields_solve hsolve
  have hech := Stage.echelon_of_yields hs helim
  have hbal := hech.balances_of_found rfl hfound
  have hdet := hech.det_ne_zero rfl hfound
  rw [Augmented.matrix_join] at hdet
  have hrows : ∀ i, ∑ j, ((m.entry i j).val : ℚ) * (x.get j).val =
      pow2 f.fracBits * (b.get i).val := by
    intro i
    have := hbal i
    rw [Augmented.miss, sub_eq_zero] at this
    simpa [Augmented.join] using this
  refine ⟨fun i => by exact_mod_cast hrows i, hdet, fun y hy => ?_,
    Stage.upperResidual_of_found f.fracBits_le rfl hfound, fun rounding overflow => ?_⟩
  · -- the difference of two solutions is in the kernel of the matrix
    have hker : m.rational.mulVec (y - fun j => ((x.get j).val : ℚ)) = 0 := by
      ext i
      simp only [Matrix.mulVec, dotProduct, Grid.rational, Matrix.of_apply, Pi.sub_apply,
        Pi.zero_apply, mul_sub, Finset.sum_sub_distrib]
      rw [hy i, hrows i, sub_self]
    exact sub_eq_zero.mp (Matrix.eq_zero_of_mulVec_eq_zero hdet hker)
  · refine (outcome_run _ 0 _).trans (eval_eq_ok_iff.mpr ?_)
    refine hyields.mono fun op left right answer h => ?_
    exact Format.apply_of_exact ((f.withRounding rounding).withOverflow overflow) h

/-- Coefficients whose elimination exchanges rows and divides without a remainder. -/
def evenMatrix : Grid 3 3 :=
  #v[#v[⟨2⟩, ⟨6⟩, ⟨4⟩], #v[⟨4⟩, ⟨4⟩, ⟨8⟩], #v[⟨-4⟩, ⟨0⟩, ⟨4⟩]]

/-- A right-hand side to go with them. -/
def evenRhs : Column 3 := #v[⟨12⟩, ⟨8⟩, ⟨-6⟩]

/-- The format in which they are solved: one fractional bit, to nearest, clamping. -/
def evenFormat : Format where
  fracBits := 1
  rounding := .nearest
  overflow := .saturating

theorem Format.exact_solve_even :
    ⟨.divide, ⟨2⟩, ⟨4⟩, some ⟨1⟩⟩ ∈ (evenFormat.solveRun evenMatrix evenRhs).calls ∧
    (∀ c ∈ (evenFormat.solveRun evenMatrix evenRhs).calls, c.Exact (pow2 1)) ∧
    ∃ (S : Stage 3) (x : Column 3),
      (evenFormat.solveRun evenMatrix evenRhs).outcome = .ok (S, x) ∧
      S.swaps = [⟨0, 1⟩] ∧ x = #v[⟨2⟩, ⟨4⟩, ⟨-1⟩] ∧
      (∀ i, ∑ j, (evenMatrix.entry i j).val * (x.get j).val = 2 * (evenRhs.get i).val) ∧
      evenMatrix.rational.det ≠ 0 ∧
      S.upper.upperResidual x.toList S.rhs.toList 1 = .ok 0 ∧
      (((evenFormat.withRounding .truncate).withOverflow .checked).solveRun
        evenMatrix evenRhs).outcome = .ok (S, x) := by
  have hrun : (evenFormat.solveRun evenMatrix evenRhs).outcome.toOption.map
      (fun r => (r.1.swaps, r.2)) = some ([⟨0, 1⟩], #v[⟨2⟩, ⟨4⟩, ⟨-1⟩]) := by
    decide +kernel
  have hexact : ∀ c ∈ (evenFormat.solveRun evenMatrix evenRhs).calls, c.Exact (pow2 1) := by
    decide +kernel
  obtain ⟨⟨S, x⟩, houtcome, hview⟩ := exists_ok_of_view hrun
  obtain ⟨hswaps, hx⟩ := Prod.mk.inj hview
  obtain ⟨hrows, hdet, -, hresidual, hsame⟩ :=
    exact_solve evenFormat evenMatrix evenRhs S x houtcome hexact
  exact ⟨by decide +kernel, hexact, S, x, houtcome, hswaps, hx, hrows, hdet, hresidual,
    hsame .truncate .checked⟩

end ScaledGauss

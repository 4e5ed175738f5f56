import Mathlib.LinearAlgebra.Matrix.Block
import Mathlib.LinearAlgebra.Matrix.Determinant.Basic
import Mathlib.Tactic.FieldSimp
import ScaledGauss.Proofs.Elimination
import ScaledGauss.Proofs.Rounding

/-!
# Eliminations without rounding

A call is **exact** if its answer is the result of the operation on the numbers that the
raw values stand for, with nothing rounded and nothing out of range
(`ScaledGauss.Call.Exact`). An exact call has the same answer in every format of its
scale (`ScaledGauss.Format.apply_of_exact`).

In an elimination whose calls are exact, every reduction clears its column, so that the
entries to the left of the current column are zero from the diagonal down. Exchanging two
rows from that column onward is then the same as exchanging them whole, and a reduction is
a row operation of ordinary linear algebra. Hence the invariant
(`ScaledGauss.Stage.Echelon`): the finished columns are cleared, the solutions are those of
the system at the start, and the determinant is that of the start up to a sign for each
exchange.
-/

namespace ScaledGauss

open Plan

/-! ### Exact answers -/

/-- **The law of exact answers** at a scale. -/
def Law.exact (scale : Nat) : Law
  | .multiply, p, q, r => r.val * scale = p.val * q.val
  | .divide, p, q, r => q.val ≠ 0 ∧ r.val * q.val = p.val * scale
  | .add, p, q, r => r.val = p.val + q.val
  | .subtract, p, q, r => r.val = p.val - q.val

instance (scale : Nat) (op : Op) (p q r : Scaled) : Decidable (Law.exact scale op p q r) :=
  match op with
  | .multiply => inferInstanceAs (Decidable (_ = _))
  | .divide => inferInstanceAs (Decidable (_ ∧ _))
  | .add => inferInstanceAs (Decidable (_ = _))
  | .subtract => inferInstanceAs (Decidable (_ = _))

/-- **An exact call**: it has an answer, and the answer is exact. -/
def Call.Exact (scale : Nat) (c : Call) : Prop :=
  match c.answer with
  | some r => Law.exact scale c.op c.left c.right r
  | none => False

instance (scale : Nat) (c : Call) : Decidable (c.Exact scale) :=
  match c with
  | ⟨op, p, q, some r⟩ => inferInstanceAs (Decidable (Law.exact scale op p q r))
  | ⟨_, _, _, none⟩ => inferInstanceAs (Decidable False)

/-- **An exact answer is the answer of every format** of that scale. -/
theorem Format.apply_of_exact (f : Format) {op : Op} {p q r : Scaled}
    (h : Law.exact (pow2 f.fracBits) op p q r) : f.arithmetic.apply op p q = .ok r := by
  have hs := pow2_pos f.fracBits
  have hresult : ¬(op = .divide ∧ q.val = 0) ∧ f.exact op p q = r.val := by
    cases op with
    | multiply =>
      have h' : r.val * pow2 f.fracBits = p.val * q.val := h
      refine ⟨by simp, ?_⟩
      rw [exact, ← h', Rounding.product_mul_right _ hs]
    | divide =>
      obtain ⟨hq, h'⟩ : q.val ≠ 0 ∧ r.val * q.val = p.val * pow2 f.fracBits := h
      refine ⟨fun hc => hq hc.2, ?_⟩
      rw [exact, ← h', Rounding.quotient_mul_right _ hq]
    | add => exact ⟨by simp, Eq.symm h⟩
    | subtract => exact ⟨by simp, Eq.symm h⟩
  rw [apply_eq_narrow, if_neg hresult.1, hresult.2, narrow_of_inRange _ _ r.inRange_val,
    Scaled.wrap_val]

/-! ### Row operations -/

section RowOperations

variable {n : Nat}

/-- The entries of a matrix as rational numbers, in raw units. -/
def Grid.rational (m : Grid n n) : Matrix (Fin n) (Fin n) ℚ := .of fun i j => (m.entry i j).val

namespace Augmented

variable {scale : Nat} {a a' : Augmented n} {x : Fin n → ℚ}

theorem rational_matrix_apply (a : Augmented n) (k j : Fin n) :
    a.matrix.rational k j = (a.entry k j.castSucc).val := by
  simp [Grid.rational, matrix]

/-- By how much a vector misses an equation. -/
def miss (scale : Nat) (a : Augmented n) (x : Fin n → ℚ) (k : Fin n) : ℚ :=
  (∑ j, ((a.entry k j.castSucc).val : ℚ) * x j) - scale * (a.entry k (Fin.last n)).val

/-- **A solution** of a system, in raw units: it misses no equation. -/
def Balances (scale : Nat) (a : Augmented n) (x : Fin n → ℚ) : Prop := ∀ k, miss scale a x k = 0

/-- Permuting the equations keeps the solutions. -/
theorem balances_iff_of_perm {σ : Equiv.Perm (Fin n)}
    (h : ∀ k j, a'.entry k j = a.entry (σ k) j) : Balances scale a' x ↔ Balances scale a x := by
  have hmiss : ∀ k, miss scale a' x k = miss scale a x (σ k) := by
    intro k
    simp only [miss, h]
  simp only [Balances, hmiss]
  exact ⟨fun hx k => by simpa using hx (σ.symm k), fun hx k => hx (σ k)⟩

/-- Permuting the equations changes the determinant by the sign of the permutation. -/
theorem det_of_perm {σ : Equiv.Perm (Fin n)} (h : ∀ k j, a'.entry k j = a.entry (σ k) j) :
    a'.matrix.rational.det = Equiv.Perm.sign σ * a.matrix.rational.det := by
  have hsub : a'.matrix.rational = a.matrix.rational.submatrix σ id := by
    ext k j
    rw [Matrix.submatrix_apply, rational_matrix_apply, rational_matrix_apply, h, id]
  rw [hsub, Matrix.det_permute]

/-- **Subtracting multiples of one equation** from the others, at a scale. -/
def Combines (scale : Nat) (i : Fin n) (c : Fin n → Int) (a a' : Augmented n) : Prop :=
  c i = 0 ∧ ∀ k j,
    scale * (a'.entry k j).val = scale * (a.entry k j).val - c k * (a.entry i j).val

variable {i : Fin n} {c : Fin n → Int}

/-- Subtracting multiples of an equation keeps the solutions. -/
theorem Combines.balances_iff (h : Combines scale i c a a') (hs : 0 < scale) :
    Balances scale a' x ↔ Balances scale a x := by
  have hs' : (scale : ℚ) ≠ 0 := by exact_mod_cast hs.ne'
  have hentry : ∀ k j, (scale : ℚ) * (a'.entry k j).val =
      scale * (a.entry k j).val - c k * (a.entry i j).val := by
    intro k j
    exact_mod_cast h.2 k j
  have hmiss : ∀ k, scale * miss scale a' x k =
      scale * miss scale a x k - c k * miss scale a x i := by
    intro k
    have hsum : scale * ∑ j, ((a'.entry k j.castSucc).val : ℚ) * x j =
        scale * (∑ j, ((a.entry k j.castSucc).val : ℚ) * x j) -
          c k * ∑ j, ((a.entry i j.castSucc).val : ℚ) * x j := by
      simp only [Finset.mul_sum, ← Finset.sum_sub_distrib]
      refine Finset.sum_congr rfl fun j _ => ?_
      rw [← mul_assoc, hentry]
      ring
    have hlast := hentry k (Fin.last n)
    simp only [miss, mul_sub]
    rw [hsum, ← mul_assoc, mul_comm (scale : ℚ) scale, mul_assoc, hlast]
    ring
  -- the pivot equation is kept as it is
  have hpivot : miss scale a' x i = miss scale a x i := by
    have := hmiss i
    rw [h.1, Int.cast_zero, zero_mul, sub_zero] at this
    exact mul_left_cancel₀ hs' this
  constructor
  · intro hx k
    have := hmiss k
    rw [hx k, ← hpivot, hx i, mul_zero, mul_zero, sub_zero] at this
    exact (mul_eq_zero.mp this.symm).resolve_left hs'
  · intro hx k
    have := hmiss k
    rw [hx k, hx i, mul_zero, mul_zero, sub_zero] at this
    exact (mul_eq_zero.mp this).resolve_left hs'

/-- Subtracting multiples of an equation keeps the determinant. -/
theorem Combines.det_eq (h : Combines scale i c a a') (hs : 0 < scale) :
    a'.matrix.rational.det = a.matrix.rational.det := by
  have hs' : (scale : ℚ) ≠ 0 := by exact_mod_cast hs.ne'
  refine Matrix.det_eq_of_forall_row_eq_smul_add_const (fun k => -(c k : ℚ) / scale) i ?_ ?_
  · rw [h.1, Int.cast_zero, neg_zero, zero_div]
  · intro k j
    have hentry : (scale : ℚ) * (a'.entry k j.castSucc).val =
        scale * (a.entry k j.castSucc).val - c k * (a.entry i j.castSucc).val := by
      exact_mod_cast h.2 k j.castSucc
    rw [rational_matrix_apply, rational_matrix_apply, rational_matrix_apply]
    field_simp
    linarith

end Augmented

end RowOperations

/-! ### The invariant -/

namespace Stage

variable {n : Nat} {scale : Nat} {a : Augmented n} {i : Fin n} {S S' : Stage n}

/-- **An exact elimination so far**: the finished columns are cleared below the diagonal,
and the system has the solutions and, up to a sign for each exchange, the determinant of
the one at the start. -/
structure Echelon (scale : Nat) (a : Augmented n) (finished : Nat) (S : Stage n) : Prop where
  /-- The finished columns are zero below the diagonal. -/
  cleared : ∀ k j : Fin n, j.val < finished → j < k → (S.coefficient k j).val = 0
  /-- The solutions are those of the start. -/
  balances : ∀ x, S.system.Balances scale x ↔ a.Balances scale x
  /-- Every exchange has changed the sign of the determinant. -/
  det : S.system.matrix.rational.det = (-1) ^ S.swaps.length * a.matrix.rational.det

theorem echelon_start (scale : Nat) (one zero : Scaled) (a : Augmented n) :
    Echelon scale a 0 (.start one zero a) :=
  ⟨fun _ _ hj => absurd hj (Nat.not_lt_zero _), fun _ => Iff.rfl, by simp [start]⟩

/-- **Exchanging from the current column is exchanging whole rows**, because to the left of
it both rows are zero. -/
theorem Echelon.entry_exchange (h : Echelon scale a i S) {k : Fin n} (hik : i < k) (l : Fin n)
    (j : Fin (n + 1)) :
    (S.exchange i k).system.entry l j = S.system.entry (Equiv.swap i k l) j := by
  have hzero : ∀ p : Fin n, i ≤ p → ∀ j, j < i.castSucc → (S.system.entry p j).val = 0 :=
    fun p hp j hj => h.cleared p ⟨j, lt_trans hj i.isLt⟩ hj (lt_of_lt_of_le hj hp)
  refine entry_exchange_of_agree (fun j hj => Scaled.ext_val ?_) l j
  rw [hzero i le_rfl j hj, hzero k hik.le j hj]

theorem Echelon.exchange (h : Echelon scale a i S) {k : Fin n} (hik : i < k) :
    Echelon scale a i (S.exchange i k) := by
  refine ⟨fun l j hj hjl => ?_, fun x => ?_, ?_⟩
  · rw [coefficient, h.entry_exchange hik]
    refine h.cleared _ j hj ?_
    rw [Equiv.swap_apply_def]
    split_ifs <;> omega
  · exact (Augmented.balances_iff_of_perm (h.entry_exchange hik)).trans (h.balances x)
  · rw [Augmented.det_of_perm (h.entry_exchange hik), Equiv.Perm.sign_swap hik.ne, h.det,
      swaps_exchange, List.length_append, List.length_singleton, pow_succ]
    push_cast
    ring

/-- **An exact reduction is a row operation**: it subtracts multiples of the pivot row, the
multipliers being those on record. -/
theorem Echelon.combines (h : Echelon scale a i S) {pivot : Scaled}
    (hr : S.Reduced (.exact scale) i pivot (rowsBelow i) S') :
    Augmented.Combines scale i (fun k => if i < k then (S'.lower.entry k i).val else 0)
      S.system S'.system := by
  refine ⟨if_neg (lt_irrefl i), fun k j => ?_⟩
  beta_reduce
  by_cases hk : i < k
  · rw [if_pos hk]
    rcases le_or_gt i.castSucc j with hj | hj
    · obtain ⟨product, hp, hd⟩ := hr.entry k (mem_rowsBelow.mpr hk) j hj
      have hp' : product.val * scale = (S'.lower.entry k i).val * (S.system.entry i j).val := hp
      have hd' : (S'.system.entry k j).val = (S.system.entry k j).val - product.val := hd
      rw [hd', ← hp']
      ring
    · -- left of the pivot the pivot row is zero
      have hzero : (S.system.entry i j).val = 0 := h.cleared i ⟨j, lt_trans hj i.isLt⟩ hj hj
      rw [hr.entry_of_lt k hj, hzero, mul_zero, sub_zero]
  · rw [if_neg hk, zero_mul, sub_zero, hr.entry_of_le (not_lt.mp hk)]

/-- **An exact reduction clears its column.** -/
theorem coefficient_of_reduced (hs : 0 < scale)
    (hr : S.Reduced (.exact scale) i (S.coefficient i i) (rowsBelow i) S') {k : Fin n}
    (hk : i < k) : (S'.coefficient k i).val = 0 := by
  obtain ⟨product, hp, hd⟩ := hr.entry k (mem_rowsBelow.mpr hk) i.castSucc le_rfl
  obtain ⟨-, hq⟩ := hr.factor k (mem_rowsBelow.mpr hk)
  have hp' : product.val * scale = (S.coefficient k i).val * scale := Eq.trans hp hq
  have hd' : (S'.coefficient k i).val = (S.coefficient k i).val - product.val := hd
  rw [hd', mul_right_cancel₀ (by exact_mod_cast hs.ne') hp', sub_self]

theorem Echelon.reduce (hs : 0 < scale) (h : Echelon scale a i S)
    (hr : S.Reduced (.exact scale) i (S.coefficient i i) (rowsBelow i) S') :
    Echelon scale a (i.val + 1) S' := by
  have hcomb := h.combines hr
  refine ⟨fun k j hj hjk => ?_, fun x => ?_, ?_⟩
  · rcases eq_or_ne j i with rfl | hji
    · exact coefficient_of_reduced hs hr hjk
    · have hlt : j < i := lt_of_le_of_ne (Nat.le_of_lt_succ hj) hji
      rw [coefficient, hr.entry_of_lt k hlt]
      exact h.cleared k j hlt hjk
  · exact (hcomb.balances_iff hs).trans (h.balances x)
  · rw [hcomb.det_eq hs, h.det, hr.swaps]

/-- **The determinant of the triangle** that an exact elimination ends in. -/
theorem Echelon.det_upper (h : Echelon scale a n S) :
    S.system.matrix.rational.det = ∏ i, ((S.coefficient i i).val : ℚ) := by
  have htri : S.system.matrix.rational.BlockTriangular id := by
    intro k j hj
    have hc : (S.coefficient k j).val = 0 := h.cleared k j j.isLt hj
    rw [Augmented.rational_matrix_apply]
    exact_mod_cast hc
  rw [Matrix.det_of_isUpperTriangular htri]
  exact Finset.prod_congr rfl fun i _ => Augmented.rational_matrix_apply _ i i

/-- **A finished exact elimination** is in echelon form. -/
theorem echelon_of_yields (hs : 0 < scale) {one zero : Scaled}
    (h : Yields (.exact scale) (a.eliminate one zero) S) : Echelon scale a n S :=
  h.eliminate_induction (fun _ _ _ hik _ hT => hT.exchange hik)
    (fun _ _ _ hT hr => hT.reduce hs hr) (echelon_start scale one zero a)

end Stage

end ScaledGauss

import ScaledGauss.Proofs.Residual

/-!
# How far a row is from its right-hand side

Back substitution does not solve its rows, it solves them up to the errors of its answers.
This file keeps account of those errors for a law of any precision
(`ScaledGauss.Law.Precise`): sums and differences are exact, a product is off by at most a
given slack, and a quotient, multiplied back, by at most a given function of its divisor.
Row `i` makes one product for each column after the diagonal and one quotient, so the exact
sum of its products misses the right-hand side by at most so many slacks and one quotient
(`ScaledGauss.Augmented.dot_rowTerms_off`).

An exact law has no slack, and the same account then says that the rows are solved; a
checked format has a slack of one unit. Both read off the same bound that the sums which
occur on the way are not large (`ScaledGauss.Augmented.natAbs_dot_le_of_found`), so that the
residual is computed in words that are wide enough.
-/

namespace ScaledGauss

open Plan

/-- **A law of a given precision**, at a scale. -/
structure Law.Precise (R : Law) (scale slack : Nat) (remainder : Scaled → Nat) : Prop where
  /-- Sums are exact. -/
  add : ∀ {p q r}, R .add p q r → r.val = p.val + q.val
  /-- Differences are exact. -/
  subtract : ∀ {p q r}, R .subtract p q r → r.val = p.val - q.val
  /-- A product is off by at most the slack. -/
  multiply : ∀ {p q r}, R .multiply p q r → (p.val * q.val - scale * r.val).natAbs ≤ slack
  /-- A quotient leaves at most the remainder that its divisor admits. -/
  divide : ∀ {p q r}, R .divide p q r → (scale * p.val - q.val * r.val).natAbs ≤ remainder q

namespace Augmented

variable {n : Nat} {σ : Type} {R : Law} {scale slack : Nat} {remainder : Scaled → Nat} {held : σ}
  {zero : Scaled} {a : Augmented n} {x : Column n} {i : Fin n}

/-- **A weighted sum**, over any list of columns: one slack for each of them. -/
theorem weightedSum_off (hR : R.Precise scale slack remainder) {cols : List (Fin n)}
    {s s' : Scaled}
    (h : Yields R (cols.foldlM (fun sum j => do
      let product ← .consult held .multiply (x.get j) (a.entry i j.castSucc)
      .consult held .add sum product) s) s') :
    (scale * s.val + Grid.dot (cols.map fun j => (a.matrix.entry i j, x.get j)) -
      scale * s'.val).natAbs ≤ cols.length * slack := by
  induction cols generalizing s with
  | nil =>
    rw [List.foldlM_nil, yields_pure_iff] at h
    simp [h]
  | cons j cols ih =>
    simp only [List.foldlM_cons, yields_bind_iff, yields_consult_iff] at h
    obtain ⟨t, ⟨product, hp, ht⟩, h⟩ := h
    have hentry : a.matrix.entry i j = a.entry i j.castSucc := Grid.entry_ofEntries _ _ _
    have hp' := hR.multiply hp
    have hrest := ih h
    -- the product of this column, less its rounding, goes into the sum so far
    have hsplit : scale * s.val +
          Grid.dot ((j :: cols).map fun j => (a.matrix.entry i j, x.get j)) - scale * s'.val =
        ((x.get j).val * (a.entry i j.castSucc).val - scale * product.val) +
          (scale * t.val + Grid.dot (cols.map fun j => (a.matrix.entry i j, x.get j)) -
            scale * s'.val) := by
      rw [List.map_cons, Grid.dot_cons, hentry, hR.add ht]
      ring
    rw [hsplit, List.length_cons, Nat.add_mul, Nat.one_mul]
    refine (Int.natAbs_add_le _ _).trans ?_
    omega

/-- **A dividend** is the right-hand side less the products of the columns after the diagonal,
up to one slack for each of them; and the products of any first few of them are a raw value
times the scale, as precisely. -/
theorem dividend_off (hR : R.Precise scale slack remainder) (hzero : zero.val = 0) {d : Scaled}
    (h : Yields R (a.dividend held zero x i) d) :
    (scale * d.val + Grid.dot ((rowsBelow i).map fun j => (a.matrix.entry i j, x.get j)) -
        scale * (a.rhs.get i).val).natAbs ≤ (rowsBelow i).length * slack ∧
      ∀ cols, cols <+: rowsBelow i → ∃ s : Scaled,
        (Grid.dot (cols.map fun j => (a.matrix.entry i j, x.get j)) - scale * s.val).natAbs ≤
          cols.length * slack := by
  by_cases hlast : i.val + 1 = n
  · have hnil : rowsBelow i = [] := by
      rw [List.eq_nil_iff_forall_not_mem]
      intro k hk
      have := mem_rowsBelow.mp hk
      omega
    rw [dividend, if_pos hlast, yields_pure_iff] at h
    rw [hnil, h]
    refine ⟨by simp, fun cols hcols => ⟨.zero, ?_⟩⟩
    simp [List.prefix_nil.mp hcols]
  · simp only [dividend, if_neg hlast, yields_bind_iff, yields_consult_iff] at h
    obtain ⟨s, hs, hd⟩ := h
    have hsum := weightedSum_off hR hs
    rw [hzero, mul_zero, zero_add] at hsum
    refine ⟨?_, fun cols hcols => ?_⟩
    · rw [hR.subtract hd, mul_sub]
      have hcancel : ∀ y z w : Int, y - z + w - y = w - z := fun y z w => by ring
      rw [hcancel]
      exact hsum
    · obtain ⟨t, ht⟩ := hs.foldlM_prefix hcols
      have hpart := weightedSum_off hR ht
      rw [hzero, mul_zero, zero_add] at hpart
      exact ⟨t, hpart⟩

/-- **How far a row is from its right-hand side**: one quotient, and one slack for each column
after the diagonal. -/
theorem dot_rowTerms_off (hR : R.Precise scale slack remainder) (hzero : zero.val = 0)
    (h : Found R held zero a x i) :
    (Grid.dot (a.matrix.rowTerms x i) - scale * (a.rhs.get i).val).natAbs ≤
      remainder (a.matrix.entry i i) + (rowsBelow i).length * slack := by
  obtain ⟨d, hd, hq⟩ := h
  have hentry : a.matrix.entry i i = a.entry i i.castSucc := Grid.entry_ofEntries _ _ _
  have hquotient := hR.divide hq
  obtain ⟨hrow, -⟩ := dividend_off hR hzero hd
  rw [Grid.rowTerms, Grid.dot_cons, hentry]
  omega

/-- The products of the first few columns of a row cannot be large. -/
theorem natAbs_dot_le_of_found (hR : R.Precise scale slack remainder) (hzero : zero.val = 0)
    (h : Found R held zero a x i) {terms : List (Scaled × Scaled)}
    (ht : terms <+: a.matrix.rowTerms x i) :
    (Grid.dot terms).natAbs ≤ 0x4000000000000000 + scale * 0x80000000 + n * slack := by
  obtain ⟨d, hd, hq⟩ := h
  obtain ⟨-, hpart⟩ := dividend_off hR hzero hd
  rcases List.prefix_cons_iff.mp ht with rfl | ⟨rest, rfl, hrest⟩
  · simp
  · obtain ⟨cols, hcols, rfl⟩ := List.prefix_map_iff.mp hrest
    obtain ⟨s, hs⟩ := hpart cols hcols
    have hdiag := Scaled.natAbs_val_mul_le (a.matrix.entry i i) (x.get i)
    -- the columns after the diagonal add up to a raw value times the scale, nearly
    have hraw : (scale * s.val : Int).natAbs ≤ scale * 0x80000000 := by
      rw [Int.natAbs_mul, Int.natAbs_natCast]
      exact Nat.mul_le_mul_left scale s.natAbs_val_le
    have hcount : cols.length * slack ≤ n * slack := by
      refine Nat.mul_le_mul_right slack (hcols.length_le.trans ?_)
      rw [Grid.length_rowsBelow]
      omega
    rw [Grid.dot_cons]
    omega

end Augmented

end ScaledGauss

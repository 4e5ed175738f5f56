import ScaledGauss.Proofs.FinishedColumns
import ScaledGauss.Proofs.Triangular

/-!
# Permutation systems

A system whose matrix is a permutation matrix says what each unknown is, in some order. Its
elimination sorts the equations: step `i` finds the one equation for unknown `i` and brings it to
row `i` by a single exchange, unless it is there already. All multipliers are zero, and so nothing
is ever computed but zeros, and at the end the right-hand side divided by one. This is exact, and
hence the same under every format, for right-hand sides up to the ends of the range
(`ScaledGauss.Format.permutation_solved`).

The invariant (`ScaledGauss.Stage.Sorted`) is that the system is the solved one with its rows in
another order, by a permutation that leaves the finished rows in place. Two things have to be
arranged for a step to keep it.

* **One exchange only.** There is one entry in the column that exceeds the others, so the scan
  exchanges at most once (`ScaledGauss.Stage.scan_eq_exchange`).
* **Whole rows.** An exchange moves only part of the rows, from the column of its step on. What it
  leaves behind are zeros, because the equations of the unknowns before are in place.
-/

namespace ScaledGauss

open Plan

variable {n : Nat} {scale : Nat} {one : Scaled}

/-- **The matrix of a permutation**, over a constant: in row `i` it stands in column `τ i`. -/
def Grid.permutation (one : Scaled) (τ : Equiv.Perm (Fin n)) : Grid n n :=
  .ofEntries fun i j => if j = τ i then one else .zero

namespace Augmented

/-- **The solved system**: it says of each unknown what it is. -/
def solved (one : Scaled) (x : Column n) : Augmented n := .join (.identity n one .zero) x

theorem entry_solved_castSucc (one : Scaled) (x : Column n) (k i : Fin n) :
    (solved one x).entry k i.castSucc = if k = i then one else .zero := by
  simp [solved, join, Grid.identity]

theorem get_rhs_solved (one : Scaled) (x : Column n) (i : Fin n) :
    (solved one x).rhs.get i = x.get i :=
  congrArg (Vector.get · i) (rhs_join _ x)

/-- **A permutation system** is the solved one with its equations in another order. -/
theorem entry_join_permutation (τ : Equiv.Perm (Fin n)) {b x : Column n}
    (hx : ∀ i, x.get (τ i) = b.get i) (k : Fin n) (j : Fin (n + 1)) :
    (join (.permutation one τ) b).entry k j = (solved one x).entry (τ k) j := by
  simp only [join, solved, Grid.permutation, Grid.identity, Grid.entry_ofEntries, hx, eq_comm]

end Augmented

namespace Stage

variable {i r : Fin n} {x : Column n} {σ : Equiv.Perm (Fin n)} {S : Stage n}

/-! ### One exchange only -/

/-- **A scan with one entry to find** exchanges once. -/
theorem scan_eq_exchange (hir : i < r) (hr : S.coefficient i i < S.coefficient r i)
    (hothers : ∀ k, i < k → k ≠ r → S.coefficient k i ≤ S.coefficient i i) :
    S.scan i = S.exchange i r := by
  obtain ⟨before, after, hrows⟩ := List.append_of_mem (mem_rowsBelow.mpr hir)
  have hnodup := nodup_rowsBelow i
  rw [hrows, List.nodup_append, List.nodup_cons] at hnodup
  obtain ⟨-, ⟨hafter, -⟩, hbefore⟩ := hnodup
  have hbelow : ∀ k, k ∈ before ∨ k ∈ after → i < k := by
    intro k hk
    rw [← mem_rowsBelow, hrows, List.mem_append, List.mem_cons]
    tauto
  have hfirst : before.foldl (compare i) S = S := foldl_compare_eq_self fun k hk =>
    hothers k (hbelow k (.inl hk)) (hbefore k hk r List.mem_cons_self)
  have hfound : compare i S r = S.exchange i r := if_pos hr
  have hrest : after.foldl (compare i) (S.exchange i r) = S.exchange i r := by
    -- what did not exceed the old pivot does not exceed the new one
    refine foldl_compare_eq_self fun k hk => ?_
    have hik : i < k := hbelow k (.inr hk)
    have hkr : k ≠ r := fun hc => hafter (hc ▸ hk)
    rw [coefficient_exchange, coefficient_exchange, Equiv.swap_apply_left,
      Equiv.swap_apply_of_ne_of_ne hik.ne' hkr, Scaled.le_iff_val]
    rw [Scaled.lt_iff_val] at hr
    exact (Scaled.le_iff_val.mp (hothers k hik hkr)).trans hr.le
  rw [scan, hrows, List.foldl_append, hfirst, List.foldl_cons, hfound, hrest]

/-! ### Sorting the equations -/

/-- **A sorted stage**, after a number of steps: the equations of a solved system in an order that
leaves the finished rows in place, with nothing entered among the multipliers and at most one
exchange on record for each finished step. -/
structure Sorted (one : Scaled) (x : Column n) (finished : Nat) (σ : Equiv.Perm (Fin n))
    (S : Stage n) : Prop where
  /-- The finished rows are in place. -/
  fixes : ∀ k : Fin n, k.val < finished → σ k = k
  /-- The equations are those of the solved system. -/
  entry : ∀ k j, S.system.entry k j = (Augmented.solved one x).entry (σ k) j
  /-- The multipliers are those of an identity matrix. -/
  lower : S.lower = .identity n one .zero
  /-- The exchanges were made at finished steps. -/
  steps : ∀ e ∈ S.swaps, e.step < finished
  /-- No two were made at the same step. -/
  once : (S.swaps.map Swap.step).Nodup

namespace Sorted

/-- In each column there is one entry other than zero. -/
theorem coefficient_eq {t : Nat} (h : S.Sorted one x t σ) (k j : Fin n) :
    S.coefficient k j = if σ k = j then one else .zero :=
  (h.entry k j.castSucc).trans (Augmented.entry_solved_castSucc one x (σ k) j)

/-- The equation of an unknown is in one row, and in every other row its column is zero. -/
theorem coefficient_of_ne {t : Nat} (h : S.Sorted one x t σ) {j k : Fin n} (hr : σ r = j)
    (hkr : k ≠ r) : S.coefficient k j = .zero := by
  rw [h.coefficient_eq, if_neg]
  exact fun hc => hkr (σ.injective (hc.trans hr.symm))

/-- **A row in place** needs no exchange. -/
theorem succ (h : S.Sorted one x i σ) (hi : σ i = i) : S.Sorted one x (i.val + 1) σ where
  fixes k hk := by
    rcases (Nat.le_of_lt_succ hk).eq_or_lt with heq | hlt
    · rw [Fin.ext heq, hi]
    · exact h.fixes k hlt
  entry := h.entry
  lower := h.lower
  steps e he := (h.steps e he).trans (Nat.lt_succ_self _)
  once := h.once

/-- **The exchange with the equation of unknown `i`** puts it in place. -/
theorem exchange (h : S.Sorted one x i σ) (hir : i < r) (hr : σ r = i) :
    (S.exchange i r).Sorted one x (i.val + 1) ((Equiv.swap i r).trans σ) where
  fixes k hk := by
    rw [Equiv.trans_apply]
    rcases (Nat.le_of_lt_succ hk).eq_or_lt with heq | hlt
    · rw [Fin.ext heq, Equiv.swap_apply_left, hr]
    · have hki : k < i := hlt
      rw [Equiv.swap_apply_of_ne_of_ne hki.ne (hki.trans hir).ne, h.fixes k hlt]
  entry l j := by
    -- before column `i` both rows are zero
    have hzero : ∀ p : Fin n, i ≤ p → ∀ j : Fin (n + 1), j < i.castSucc →
        S.system.entry p j = .zero := by
      intro p hp j hj
      have hjp : (⟨j, lt_trans hj i.isLt⟩ : Fin n) < p := lt_of_lt_of_le hj hp
      exact h.coefficient_of_ne (h.fixes _ hj) hjp.ne'
    rw [entry_exchange_of_agree fun j hj => (hzero i le_rfl j hj).trans (hzero r hir.le j hj).symm,
      h.entry, Equiv.trans_apply]
  lower := h.lower
  steps e he := by
    rcases List.mem_append.mp he with he | he
    · exact (h.steps e he).trans (Nat.lt_succ_self _)
    · rw [List.mem_singleton.mp he]
      exact Nat.lt_succ_self _
  once := by
    rw [swaps_exchange, List.map_append, List.map_singleton]
    refine List.Nodup.append h.once (List.nodup_singleton _) ?_
    rw [List.disjoint_singleton]
    intro hi
    obtain ⟨e, he, hstep⟩ := List.mem_map.mp hi
    exact (h.steps e he).ne hstep

/-- **The scan of a step** puts one more equation in place. -/
theorem scan (hone : 0 < one.val) (h : S.Sorted one x i σ) :
    ∃ σ', (S.scan i).Sorted one x (i.val + 1) σ' := by
  obtain ⟨r, hr⟩ := σ.surjective i
  have hir : i ≤ r := by
    by_contra hlt
    have hfixed : σ r = r := h.fixes r (not_le.mp hlt)
    exact hlt (hr.symm.trans hfixed).le
  have hothers : ∀ k, k ≠ r → S.coefficient k i = .zero := fun k hkr => h.coefficient_of_ne hr hkr
  have hpivot : S.coefficient r i = one := by rw [h.coefficient_eq, if_pos hr]
  rcases hir.eq_or_lt with rfl | hlt
  · have hscan : S.scan i = S := by
      refine foldl_compare_eq_self fun k hk => ?_
      rw [hpivot, hothers k (mem_rowsBelow.mp hk).ne', Scaled.le_iff_val]
      exact hone.le
    rw [hscan]
    exact ⟨σ, h.succ hr⟩
  · have hscan : S.scan i = S.exchange i r := by
      refine scan_eq_exchange hlt ?_ fun k _ hkr => ?_
      · rw [hpivot, hothers i hlt.ne, Scaled.lt_iff_val]
        exact hone
      · rw [hothers k hkr, hothers i hlt.ne, Scaled.le_iff_val]
    rw [hscan]
    exact ⟨_, h.exchange hlt hr⟩

/-- Once the equation is in place there is nothing to reduce. -/
theorem yields_reduce (hone : 0 < one.val) (h : S.Sorted one x (i.val + 1) σ) :
    Yields (.exact scale) (S.reduce i) S := by
  have hi : σ i = i := h.fixes i (Nat.lt_succ_self _)
  refine yields_reduce_self (fun _ => ?_) (fun k hik => h.coefficient_of_ne hi hik.ne') ?_
  · rw [h.coefficient_eq, if_pos hi]
    exact hone.ne'
  · intro k hik
    rw [h.lower, Grid.identity, Grid.entry_ofEntries, if_neg hik.ne']

/-- **One step.** -/
theorem exists_step (hone : 0 < one.val) (h : S.Sorted one x i σ) :
    ∃ S', Yields (.exact scale) (S.step i) S' ∧ ∃ σ', S'.Sorted one x (i.val + 1) σ' := by
  obtain ⟨σ', hσ'⟩ := h.scan hone
  exact ⟨S.scan i, hσ'.yields_reduce hone, σ', hσ'⟩

/-- After the last step the system is solved. -/
theorem system_eq (h : S.Sorted one x n σ) : S.system = Augmented.solved one x := by
  ext k j
  rw [h.entry, h.fixes k k.isLt]

end Sorted

/-- **A whole elimination** of a permutation system ends, exactly, with the solved one. -/
theorem exists_sorted_of_permutation (hone : 0 < one.val) (τ : Equiv.Perm (Fin n))
    {b x : Column n} (hx : ∀ i, x.get (τ i) = b.get i) :
    ∃ S, Yields (.exact scale)
      ((Augmented.join (.permutation one τ) b).eliminate one .zero) S ∧
      ∃ σ, S.Sorted one x n σ :=
  exists_yields_finRange (I := fun t (S : Stage n) => ∃ σ, S.Sorted one x t σ)
    (fun _ _ ⟨_, hS⟩ => hS.exists_step hone)
    ⟨τ, fun _ hk => absurd hk (Nat.not_lt_zero _), Augmented.entry_join_permutation τ hx, rfl,
      nofun, .nil⟩

end Stage

/-! ### The unknowns -/

namespace Augmented

variable {τ : Type} {held : τ} {x : Column n}

/-- In the solved system every weighted sum is zero. -/
theorem yields_weightedSum_solved (c : Column n) (i : Fin n) :
    Yields (.exact scale) ((solved one x).weightedSum held .zero c i) .zero := by
  refine yields_foldlM_self fun j hj => ?_
  simp only [yields_bind_iff, yields_consult_iff]
  refine ⟨.zero, ?_, rfl⟩
  rw [entry_solved_castSucc, if_neg (mem_rowsBelow.mp hj).ne]
  exact (zero_mul _).trans (mul_zero _).symm

/-- **The unknowns of the solved system** are found by a division by one. -/
theorem found_solved (hone : 0 < one.val) (hscale : one.val = scale) (i : Fin n) :
    Found (.exact scale) held .zero (solved one x) x i := by
  refine ⟨x.get i, ?_, ?_⟩
  · rw [dividend, get_rhs_solved]
    split
    · exact yields_pure_iff.mpr rfl
    · simp only [yields_bind_iff, yields_consult_iff]
      exact ⟨.zero, yields_weightedSum_solved x i, (sub_zero _).symm⟩
  · rw [entry_solved_castSucc, if_pos rfl]
    exact ⟨hone.ne', by rw [hscale]⟩

end Augmented

/-- **Permutation systems are solved exactly**, under every format. Let the coefficients be one
where row `i` meets column `τ i`, and zero elsewhere. Whatever the right-hand side is, the
elimination returns, with an identity matrix for the triangle and another one for the multipliers,
the right-hand side in the order of the unknowns, and at most one exchange for each step; and a
solve returns, with the same values for the unknowns and residual zero. -/
theorem Format.permutation_solved (f : Format) (τ : Equiv.Perm (Fin (n + 1)))
    (b : Column (n + 1)) :
    ∃ S x, f.arithmetic.eliminate (.join (.permutation f.one τ) b) = .ok S ∧
      S.upper = .identity (n + 1) f.one .zero ∧ S.lower = .identity (n + 1) f.one .zero ∧
      (∀ i, S.rhs.get (τ i) = b.get i) ∧ (S.swaps.map Swap.step).Nodup ∧
      (LinearSystem.ofAugmented (.join (.permutation f.one τ) b)).unknowns f.arithmetic = .ok x ∧
      (∀ i, x.get (τ i) = b.get i) ∧
      S.upper.upperResidual x.toList S.rhs.toList f.fracBits = .ok 0 := by
  have hone : 0 < f.one.val := by
    rw [val_one]
    exact_mod_cast pow2_pos f.fracBits
  have hx : ∀ i, (reorder τ.symm b).get (τ i) = b.get i := by
    intro i
    simp [reorder, vector_get]
  obtain ⟨S, hS, σ, hsorted⟩ : ∃ S, Yields (.exact (pow2 f.fracBits))
      ((Augmented.join (.permutation f.one τ) b).eliminate f.one .zero) S ∧
      ∃ σ, S.Sorted f.one (reorder τ.symm b) (n + 1) σ :=
    Stage.exists_sorted_of_permutation hone τ hx
  have heliminate : f.arithmetic.eliminate (.join (.permutation f.one τ) b) = .ok S :=
    Arithmetic.eliminate_eq_ok_iff.mpr ⟨n.succ_pos, hS.mono fun _ _ _ _ h => f.apply_of_exact h⟩
  have hback : f.arithmetic.backSubstitute S.system = .ok (reorder τ.symm b) := by
    rw [hsorted.system_eq, Arithmetic.backSubstitute_eq_ok_iff n.succ_pos]
    exact fun i => (Augmented.found_solved hone f.val_one i).mono fun _ _ _ _ h =>
      f.apply_of_exact h
  have hunknowns : (LinearSystem.ofAugmented (.join (.permutation f.one τ) b)).unknowns
      f.arithmetic = .ok (reorder τ.symm b) :=
    (LinearSystem.unknowns_of_eliminate heliminate).trans hback
  have hfound : ∀ i, Augmented.Found (.exact (pow2 f.fracBits)) S .zero S.system
      (reorder τ.symm b) i := by
    rw [hsorted.system_eq]
    exact Augmented.found_solved hone f.val_one
  have hupper : S.upper = .identity (n + 1) f.one .zero := by
    rw [Stage.upper, hsorted.system_eq, Augmented.solved, Augmented.matrix_join]
  have hrhs : S.rhs = reorder τ.symm b := by
    rw [Stage.rhs, hsorted.system_eq, Augmented.solved, Augmented.rhs_join]
  exact ⟨S, reorder τ.symm b, heliminate, hupper, hsorted.lower, hrhs ▸ hx, hsorted.once,
    hunknowns, hx, Stage.upperResidual_of_found f.fracBits_le rfl hfound⟩

-- The equations say what the second, the third and the first unknown are.
example : (extremeFormat.arithmetic.eliminate (.join (.permutation extremeFormat.one (finRotate 3))
    #v[.least, .greatest, ⟨7⟩])).toOption.map (fun S => (S.swaps, S.rhs)) =
      some ([⟨0, 2⟩, ⟨1, 2⟩], #v[⟨7⟩, .least, .greatest]) := by
  decide +kernel

end ScaledGauss

import ScaledGauss.Proofs.BackwardError
import ScaledGauss.Proofs.Exact.Elimination
import ScaledGauss.Proofs.FinishedColumns

/-!
# Exact eliminations factor their matrix

An elimination without rounding is the factorization of linear algebra: the matrix it starts from,
with its rows in the order of the record, is a unit lower-triangular matrix times the triangle it
ends in. The triangle is the one that is returned. Of the other factor, the table of multipliers
that is returned has the entries, but not always in the right rows. A multiplier is entered where
its row stands, and stays there when a later step moves the row on; so the factor is the table
**brought to its rows** (`ScaledGauss.Grid.follow`), and the table as it is returned is the factor
if and only if bringing it to its rows changes nothing (`ScaledGauss.Format.exact_factors`). One
exchange at a later step between rows with different multipliers is enough to tell the two apart
(`ScaledGauss.Format.lower_left_behind`).

The product itself is the statement that no entry has a **defect**
(`ScaledGauss.Stage.defect`), in all columns and not only from the diagonal on: to the left of
the current column the rows are zero, and exchanging two rows from there onward is exchanging them
whole. That the factor is the only one comes from the pivots, none of which is zero but perhaps
the last.

The same triangle gives the determinant: each exchange changes its sign, each reduction keeps it,
and at the end it is the product of the diagonal (`ScaledGauss.Format.exact_determinant`).

## Main definitions

– `ScaledGauss.Grid.UnitLower`: ones on the diagonal and zeros above;
– `ScaledGauss.Grid.MultipliesBack`: two factors of a matrix with its rows in an order;
– `ScaledGauss.Format.eliminateRun`: the recorded run of an elimination.

## Main results

– `ScaledGauss.Stage.Factored.multipliesBack`, `ScaledGauss.Grid.MultipliesBack.unique`: there is
  a factor, and only one;
– `ScaledGauss.Format.exact_factors`, `ScaledGauss.Format.exact_determinant`: factors and
  determinant of an exact run.
-/

namespace ScaledGauss

open Plan

variable {n : Nat} {scale : Nat}

/-! ### Factors -/

namespace Grid

/-- **Ones on the diagonal and zeros above it.** -/
def UnitLower (one zero : Scaled) (g : Grid n n) : Prop :=
  ∀ k i, k ≤ i → g.entry k i = if k = i then one else zero

/-- **Two factors of a matrix** with its rows in a given order, at a scale: each of its entries is
the sum of the products from the left of the diagonal of one factor with those from above the
diagonal of the other. -/
def MultipliesBack (scale : Nat) (m : Grid n n) (order : Vector (Fin n) n)
    (lower upper : Grid n n) : Prop :=
  ∀ k j, scale * (m.entry (order.get k) j).val =
    ∑ i with i ≤ min k j, (lower.entry k i).val * (upper.entry i j).val

instance (m : Grid n n) (order : Vector (Fin n) n) (lower upper : Grid n n) :
    Decidable (MultipliesBack scale m order lower upper) :=
  inferInstanceAs (Decidable (∀ _ _, _ = _))

variable {m lower lower' upper : Grid n n} {order : Vector (Fin n) n}

/-- The last of the products up to an index. -/
theorem sum_le_eq (i : Fin n) (g : Fin n → Int) :
    (∑ l with l ≤ i, g l) = (∑ l with l.val < i.val, g l) + g i := by
  rw [← sum_lt_succ]
  refine Finset.sum_congr (Finset.filter_congr fun l _ => ?_) fun _ _ => rfl
  exact Nat.lt_succ_iff.symm

/-- **The lower factor is the only one**, below the diagonal, if the upper one has no zero on it
but perhaps the last entry. -/
theorem MultipliesBack.unique (hpivot : ∀ i k : Fin n, i < k → (upper.entry i i).val ≠ 0)
    (h : MultipliesBack scale m order lower upper)
    (h' : MultipliesBack scale m order lower' upper) {k i : Fin n} (hik : i < k) :
    lower.entry k i = lower'.entry k i := by
  -- column by column: once the columns before agree, one product is left to compare
  induction hi : i.val using Nat.strong_induction_on generalizing i with
  | _ t ih =>
    subst hi
    have hsum := (h k i).symm.trans (h' k i)
    rw [min_eq_right hik.le, sum_le_eq, sum_le_eq] at hsum
    have hbefore : (∑ l with l.val < i.val, (lower.entry k l).val * (upper.entry l i).val) =
        ∑ l with l.val < i.val, (lower'.entry k l).val * (upper.entry l i).val := by
      refine Finset.sum_congr rfl fun l hl => ?_
      have hli : l < i := (Finset.mem_filter.mp hl).2
      rw [ih l.val hli (hli.trans hik) rfl]
    rw [hbefore] at hsum
    exact Scaled.ext_val (mul_right_cancel₀ (hpivot i k hik) (add_left_cancel hsum))

end Grid

/-! ### The invariant -/

namespace Stage

variable {R : Law} {a : Augmented n} {i : Fin n} {S S' : Stage n} {one zero : Scaled}

/-- The multipliers are entered below the diagonal. -/
theorem unitLower_of_yields (h : Yields R (a.eliminate one zero) S) :
    S.lower.UnitLower one zero := by
  refine h.eliminate_induction (I := fun _ S => S.lower.UnitLower one zero)
    (fun _ _ _ _ _ hT => hT) ?_ fun k i _ => Grid.entry_ofEntries _ _ _
  intro i T T' hT hr k j hkj
  rw [hr.lower_frame k j]
  · exact hT k j hkj
  · rintro ⟨hk, rfl⟩
    exact absurd (mem_rowsBelow.mp hk) (not_lt.mpr hkj)

/-- **An exact elimination that multiplies back**: after a number of steps no entry has a
defect. -/
structure Factored (scale : Nat) (a : Augmented n) (finished : Nat) (S : Stage n) : Prop where
  /-- The finished columns are cleared. -/
  echelon : Echelon scale a finished S
  /-- No exchange is recorded for a step to come. -/
  recorded : S.Recorded finished
  /-- No entry has a defect, on either side of the diagonal. -/
  defect : ∀ k j, defect scale a finished S k j = 0

theorem factored_start (scale : Nat) (one zero : Scaled) (a : Augmented n) :
    Factored scale a 0 (.start one zero a) :=
  ⟨echelon_start scale one zero a, recorded_start one zero a,
    fun k j => by simp [Stage.defect, start]⟩

theorem Factored.exchange (h : Factored scale a i S) {k : Fin n} (hik : i < k) :
    Factored scale a i (S.exchange i k) := by
  refine ⟨h.echelon.exchange hik, h.recorded.exchange hik, fun l j => ?_⟩
  rw [defect_exchange_of_entry scale S hik (h.echelon.entry_exchange hik l j)]
  exact h.defect _ j

theorem Factored.reduce (hs : 0 < scale) (h : Factored scale a i S)
    (hr : S.Reduced (.exact scale) i (S.coefficient i i) (rowsBelow i) S') :
    Factored scale a (i.val + 1) S' := by
  refine ⟨h.echelon.reduce hs hr, (hr.recorded h.recorded).mono (Nat.le_succ _), fun k j => ?_⟩
  rcases le_or_gt k i with hk | hk
  · rw [defect_of_le scale hr hk]
    exact h.defect k j
  · -- an exact reduction takes from the entry just what the multiplier adds to the product
    have hcombines := (h.echelon.combines hr).2 k j
    beta_reduce at hcombines
    rw [if_pos hk] at hcombines
    rw [defect_below scale hr h.recorded hk, h.defect k j, hcombines]
    ring

/-- **A finished exact elimination multiplies back.** -/
theorem factored_of_yields (hs : 0 < scale)
    (h : Yields (.exact scale) (a.eliminate one zero) S) : Factored scale a n S :=
  h.eliminate_induction (fun _ _ _ hik _ hT => hT.exchange hik)
    (fun _ _ _ hT hr => hT.reduce hs hr) (factored_start scale one zero a)

/-- What is left below the diagonal of an exact elimination is zero. -/
theorem Echelon.entry_upper (h : Echelon scale a n S) {j k : Fin n} (hjk : j < k) :
    (S.upper.entry k j).val = 0 := by
  rw [Stage.entry_upper]
  exact h.cleared k j j.isLt hjk

/-- An exact elimination has divided by every pivot but the last. -/
theorem upper_ne_zero_of_exact (h : Yields (.exact scale) (a.eliminate one zero) S)
    {i k : Fin n} (hik : i < k) : (S.upper.entry i i).val ≠ 0 := by
  obtain ⟨_, _, -, hquotient, -, -⟩ := finished_of_yields h hik
  rw [Stage.entry_upper]
  exact hquotient.1

/-- **The multipliers, brought to their rows, are the lower factor.** -/
theorem Factored.multipliesBack (h : Factored scale a n S) (hone : one.val = scale)
    (hunit : (S.lower.follow S.swaps).UnitLower one zero) :
    Grid.MultipliesBack scale a.matrix (rowOrder n S.swaps) (S.lower.follow S.swaps) S.upper := by
  intro k j
  have hdefect := h.defect k j.castSucc
  have hmin : min k.val n = k.val := by omega
  rw [Stage.defect, hmin] at hdefect
  -- below the diagonal of the triangle there is nothing to add
  have hsum : (∑ i with i ≤ min k j,
      ((S.lower.follow S.swaps).entry k i).val * (S.upper.entry i j).val) =
      ∑ i with i ≤ k, ((S.lower.follow S.swaps).entry k i).val * (S.upper.entry i j).val := by
    refine Finset.sum_subset ?_ fun i hi hi' => ?_
    · intro i hi
      exact Finset.mem_filter.mpr ⟨Finset.mem_univ i,
        (Finset.mem_filter.mp hi).2.trans (min_le_left k j)⟩
    · have hik : i ≤ k := (Finset.mem_filter.mp hi).2
      have hji : j < i := by
        by_contra hc
        exact hi' (Finset.mem_filter.mpr ⟨Finset.mem_univ i, le_min hik (not_lt.mp hc)⟩)
      rw [h.echelon.entry_upper hji, mul_zero]
  have hdiagonal : ((S.lower.follow S.swaps).entry k k).val = scale := by
    rw [hunit k k le_rfl, if_pos rfl, hone]
  rw [hsum, Grid.sum_le_eq, hdiagonal]
  simp only [Stage.entry_upper, coefficient, Augmented.matrix, Grid.entry_ofEntries]
  linarith

end Stage

/-! ### Recorded runs -/

namespace Format

/-- **The recorded run of an elimination** in a format. -/
def eliminateRun (f : Format) (m : Grid n n) (b : Column n) : Trace Remains (Stage n) :=
  ((LinearSystem.ofAugmented (.join m b)).eliminate f.arithmetic.one f.arithmetic.zero).trace
    f.arithmetic

/-- A run whose calls are exact is one under the law of exact answers. -/
theorem yields_of_eliminateRun {f : Format} {m : Grid n n} {b : Column n} {S : Stage n}
    (hrun : (f.eliminateRun m b).outcome = .ok S)
    (hexact : ∀ c ∈ (f.eliminateRun m b).calls, c.Exact (pow2 f.fracBits)) :
    Yields (.exact (pow2 f.fracBits)) ((Augmented.join m b).eliminate f.one .zero) S := by
  have hy := ((run_eq_ok_iff 0).mp ⟨hrun, hexact⟩).mono (Q := .exact (pow2 f.fracBits))
    fun _ _ _ _ h => h.2
  exact (LinearSystem.yields_eliminate_iff.mp hy).2

/-- **The factors of an exact run.** The multipliers brought to their rows are unit lower
triangular, and times the triangle that is returned they are the matrix with its rows in the order
of the record. The multipliers as they are returned do the same if and only if bringing them to
their rows changes nothing. -/
theorem exact_factors (f : Format) (m : Grid n n) (b : Column n) (S : Stage n)
    (hrun : (f.eliminateRun m b).outcome = .ok S)
    (hexact : ∀ c ∈ (f.eliminateRun m b).calls, c.Exact (pow2 f.fracBits)) :
    (S.lower.follow S.swaps).UnitLower f.one .zero ∧
    Grid.MultipliesBack (pow2 f.fracBits) m (rowOrder n S.swaps) (S.lower.follow S.swaps)
      S.upper ∧
    (Grid.MultipliesBack (pow2 f.fracBits) m (rowOrder n S.swaps) S.lower S.upper ↔
      S.lower.follow S.swaps = S.lower) := by
  have hy := yields_of_eliminateRun hrun hexact
  have hfactored := Stage.factored_of_yields (pow2_pos f.fracBits) hy
  -- on the diagonal and above it the multipliers are not moved
  have habove : ∀ k i : Fin n, k ≤ i →
      (S.lower.follow S.swaps).entry k i = S.lower.entry k i := fun k i hki =>
    S.lower.entry_follow_of_row_le (fun s hs => (hfactored.recorded s hs).2.1) hki
  have hunit : (S.lower.follow S.swaps).UnitLower f.one .zero := fun k i hki =>
    (habove k i hki).trans (Stage.unitLower_of_yields hy k i hki)
  have hback := hfactored.multipliesBack f.val_one hunit
  rw [Augmented.matrix_join] at hback
  refine ⟨hunit, hback, fun h => ?_, fun h => by rwa [h] at hback⟩
  refine Grid.ext_entry fun k i => ?_
  rcases le_or_gt k i with hki | hik
  · exact habove k i hki
  · exact hback.unique (fun _ _ => Stage.upper_ne_zero_of_exact hy) h hik

/-- Coefficients whose elimination exchanges two rows at its second step, after different
multipliers were entered for them. -/
def crossedMatrix : Grid 3 3 :=
  #v[#v[⟨1⟩, ⟨1⟩, ⟨1⟩], #v[⟨-2⟩, ⟨-5⟩, ⟨0⟩], #v[⟨1⟩, ⟨2⟩, ⟨4⟩]]

/-- A right-hand side to go with them. -/
def crossedRhs : Column 3 := #v[⟨3⟩, ⟨-7⟩, ⟨7⟩]

/-- The same equations in an order in which only the first step exchanges rows. -/
def straightMatrix : Grid 3 3 :=
  #v[#v[⟨-2⟩, ⟨-5⟩, ⟨0⟩], #v[⟨1⟩, ⟨2⟩, ⟨4⟩], #v[⟨1⟩, ⟨1⟩, ⟨1⟩]]

/-- The right-hand side in that order. -/
def straightRhs : Column 3 := #v[⟨-7⟩, ⟨7⟩, ⟨3⟩]

theorem exact_factors_crossed :
    (∀ c ∈ (integer.eliminateRun crossedMatrix crossedRhs).calls, c.Exact (pow2 0)) ∧
    (∃ S : Stage 3, (integer.eliminateRun crossedMatrix crossedRhs).outcome = .ok S ∧
      S.swaps = [⟨1, 2⟩] ∧ S.lower.follow S.swaps ≠ S.lower ∧
      Grid.MultipliesBack (pow2 0) crossedMatrix (rowOrder 3 S.swaps) (S.lower.follow S.swaps)
        S.upper) ∧
    (∀ c ∈ (integer.eliminateRun straightMatrix straightRhs).calls, c.Exact (pow2 0)) ∧
    ∃ S : Stage 3, (integer.eliminateRun straightMatrix straightRhs).outcome = .ok S ∧
      S.swaps = [⟨0, 1⟩] ∧
      Grid.MultipliesBack (pow2 0) straightMatrix (rowOrder 3 S.swaps) S.lower S.upper := by
  have hexact : ∀ c ∈ (integer.eliminateRun crossedMatrix crossedRhs).calls,
      c.Exact (pow2 0) := by
    decide +kernel
  have hexact' : ∀ c ∈ (integer.eliminateRun straightMatrix straightRhs).calls,
      c.Exact (pow2 0) := by
    decide +kernel
  refine ⟨hexact, ?_, hexact', ?_⟩
  · have hrun : (integer.eliminateRun crossedMatrix crossedRhs).outcome.toOption.map
        (fun S => (S.swaps, decide (S.lower.follow S.swaps = S.lower))) =
          some ([⟨1, 2⟩], false) := by
      decide +kernel
    obtain ⟨S, hS, hview⟩ := exists_ok_of_view hrun
    obtain ⟨hswaps, hmoved⟩ := Prod.mk.inj hview
    obtain ⟨-, hback, -⟩ := exact_factors integer crossedMatrix crossedRhs S hS hexact
    exact ⟨S, hS, hswaps, of_decide_eq_false hmoved, hback⟩
  · have hrun : (integer.eliminateRun straightMatrix straightRhs).outcome.toOption.map
        (fun S => (S.swaps, decide (S.lower.follow S.swaps = S.lower))) =
          some ([⟨0, 1⟩], true) := by
      decide +kernel
    obtain ⟨S, hS, hview⟩ := exists_ok_of_view hrun
    obtain ⟨hswaps, hkept⟩ := Prod.mk.inj hview
    obtain ⟨-, -, hiff⟩ := exact_factors integer straightMatrix straightRhs S hS hexact'
    exact ⟨S, hS, hswaps, hiff.mpr (of_decide_eq_true hkept)⟩

/-- **Multipliers left behind.** Every call of this elimination is exact, but the multipliers as
they are returned, times the triangle, are not the matrix in the order of the record: the second
step has exchanged the last two rows, and their multipliers `-2` and `1` have stayed. -/
theorem lower_left_behind :
    (∀ c ∈ (integer.eliminateRun crossedMatrix crossedRhs).calls, c.Exact (pow2 0)) ∧
    ∃ S : Stage 3, (integer.eliminateRun crossedMatrix crossedRhs).outcome = .ok S ∧
      S.swaps = [⟨1, 2⟩] ∧
      S.lower = #v[#v[⟨1⟩, ⟨0⟩, ⟨0⟩], #v[⟨-2⟩, ⟨1⟩, ⟨0⟩], #v[⟨1⟩, ⟨-3⟩, ⟨1⟩]] ∧
      S.upper = #v[#v[⟨1⟩, ⟨1⟩, ⟨1⟩], #v[⟨0⟩, ⟨1⟩, ⟨3⟩], #v[⟨0⟩, ⟨0⟩, ⟨11⟩]] ∧
      ¬Grid.MultipliesBack (pow2 0) crossedMatrix (rowOrder 3 S.swaps) S.lower S.upper := by
  have hrun : (integer.eliminateRun crossedMatrix crossedRhs).outcome.toOption.map
      (fun S => (S.swaps, S.lower, S.upper)) = some ([⟨1, 2⟩],
        #v[#v[⟨1⟩, ⟨0⟩, ⟨0⟩], #v[⟨-2⟩, ⟨1⟩, ⟨0⟩], #v[⟨1⟩, ⟨-3⟩, ⟨1⟩]],
        #v[#v[⟨1⟩, ⟨1⟩, ⟨1⟩], #v[⟨0⟩, ⟨1⟩, ⟨3⟩], #v[⟨0⟩, ⟨0⟩, ⟨11⟩]]) := by
    decide +kernel
  obtain ⟨S, hS, hview⟩ := exists_ok_of_view hrun
  obtain ⟨hswaps, hview⟩ := Prod.mk.inj hview
  obtain ⟨hlower, hupper⟩ := Prod.mk.inj hview
  refine ⟨by decide +kernel, S, hS, hswaps, hlower, hupper, ?_⟩
  rw [hswaps, hlower, hupper]
  decide +kernel

end Format

/-! ### The determinant -/

/-- The entries of a matrix as integers, in raw units. -/
def Grid.integral (m : Grid n n) : Matrix (Fin n) (Fin n) ℤ := .of fun i j => (m.entry i j).val

theorem Grid.det_rational (m : Grid n n) : m.rational.det = m.integral.det :=
  (Int.cast_det m.integral).symm

namespace Stage

variable {a : Augmented n} {S : Stage n}

/-- **The determinant of an exact elimination**: a sign for each exchange, and the product of the
diagonal. -/
theorem Echelon.det_integral (h : Echelon scale a n S) :
    a.matrix.integral.det = (-1) ^ S.swaps.length * ∏ i, (S.upper.entry i i).val := by
  have hsign : (-1 : ℚ) ^ S.swaps.length * (-1) ^ S.swaps.length = 1 := by
    rw [← mul_pow, neg_one_mul, neg_neg, one_pow]
  have hdet : a.matrix.rational.det =
      (-1) ^ S.swaps.length * ∏ i, ((S.coefficient i i).val : ℚ) := by
    rw [← h.det_upper, h.det, ← mul_assoc, hsign, one_mul]
  simp only [Stage.entry_upper]
  rw [Grid.det_rational] at hdet
  exact_mod_cast hdet

end Stage

namespace Format

/-- **The determinant of an exact run.** Everything below the diagonal is zero, and the determinant
of the matrix is, up to a sign for each exchange on record, the product of the diagonal that is
left. So the matrix is singular if and only if the last entry of that diagonal is zero. -/
theorem exact_determinant (f : Format) (m : Grid n n) (b : Column n) (S : Stage n)
    (hrun : (f.eliminateRun m b).outcome = .ok S)
    (hexact : ∀ c ∈ (f.eliminateRun m b).calls, c.Exact (pow2 f.fracBits)) :
    (∀ i k, i < k → S.upper.entry k i = .zero) ∧
    m.integral.det = (-1) ^ S.swaps.length * ∏ i, (S.upper.entry i i).val ∧
    ∀ last : Fin n, last.val + 1 = n → (m.integral.det = 0 ↔ S.upper.entry last last = .zero) := by
  have hy := yields_of_eliminateRun hrun hexact
  have hechelon := Stage.echelon_of_yields (pow2_pos f.fracBits) hy
  have hdet := hechelon.det_integral
  rw [Augmented.matrix_join] at hdet
  refine ⟨fun i k hik => Scaled.ext_val (hechelon.entry_upper hik), hdet, fun last hlast => ?_⟩
  have hsign : (-1 : ℤ) ^ S.swaps.length ≠ 0 := pow_ne_zero _ (by decide)
  rw [hdet, mul_eq_zero, or_iff_right hsign, Finset.prod_eq_zero_iff, Scaled.ext_val_iff,
    Scaled.val_zero]
  constructor
  · rintro ⟨i, -, hzero⟩
    -- a pivot above the last row was divided by
    obtain rfl : i = last := by
      by_contra hne
      have hi : i < last := by
        have := Fin.val_ne_of_ne hne
        omega
      exact Stage.upper_ne_zero_of_exact hy hi hzero
    exact hzero
  · exact fun hzero => ⟨last, Finset.mem_univ last, hzero⟩

/-- Coefficients of three equations that depend on each other. -/
def dependentMatrix : Grid 3 3 :=
  #v[#v[⟨1⟩, ⟨1⟩, ⟨1⟩], #v[⟨-2⟩, ⟨-5⟩, ⟨-11⟩], #v[⟨1⟩, ⟨2⟩, ⟨4⟩]]

theorem exact_determinant_crossed :
    (∀ c ∈ (integer.eliminateRun crossedMatrix crossedRhs).calls, c.Exact (pow2 0)) ∧
    (∃ S : Stage 3, (integer.eliminateRun crossedMatrix crossedRhs).outcome = .ok S ∧
      S.upper.entry 2 1 = .zero ∧ crossedMatrix.integral.det = -11) ∧
    (∀ c ∈ (integer.eliminateRun dependentMatrix crossedRhs).calls, c.Exact (pow2 0)) ∧
    ∃ S : Stage 3, (integer.eliminateRun dependentMatrix crossedRhs).outcome = .ok S ∧
      S.upper.entry 2 2 = .zero ∧ dependentMatrix.integral.det = 0 := by
  have hexact : ∀ c ∈ (integer.eliminateRun crossedMatrix crossedRhs).calls,
      c.Exact (pow2 0) := by
    decide +kernel
  have hexact' : ∀ c ∈ (integer.eliminateRun dependentMatrix crossedRhs).calls,
      c.Exact (pow2 0) := by
    decide +kernel
  refine ⟨hexact, ?_, hexact', ?_⟩
  · have hrun : (integer.eliminateRun crossedMatrix crossedRhs).outcome.toOption.map
        (fun S => (S.swaps.length, ∏ i, (S.upper.entry i i).val)) = some (1, 11) := by
      decide +kernel
    obtain ⟨S, hS, hview⟩ := exists_ok_of_view hrun
    obtain ⟨hswaps, hdiagonal⟩ := Prod.mk.inj hview
    obtain ⟨hbelow, hdet, -⟩ := exact_determinant integer crossedMatrix crossedRhs S hS hexact
    rw [hswaps, hdiagonal] at hdet
    exact ⟨S, hS, hbelow 1 2 (by decide), hdet⟩
  · have hrun : (integer.eliminateRun dependentMatrix crossedRhs).outcome.toOption.map
        (fun S => S.upper.entry 2 2) = some .zero := by
      decide +kernel
    obtain ⟨S, hS, hlast⟩ := exists_ok_of_view hrun
    obtain ⟨-, -, hsingular⟩ :=
      exact_determinant integer dependentMatrix crossedRhs S hS hexact'
    exact ⟨S, hS, hlast, (hsingular 2 rfl).mpr hlast⟩

end Format

end ScaledGauss

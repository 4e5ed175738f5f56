import Mathlib.Algebra.Order.Floor.Div
import Mathlib.Order.Lattice.Nat
import ScaledGauss.Proofs.RowSums
import ScaledGauss.Proofs.Solve

/-!
# The accuracy of back substitution

Under a checked format nothing is lost but what is rounded away. The quotient that gives an
unknown is cut by less than one raw unit, which the row multiplies by its diagonal entry;
each product of the row is cut by at most one raw unit. So the residual of row `i` – the
exact sum of its products, divided by the scale toward negative infinity, less the
right-hand side – is at most the diagonal entry over the scale, rounded up, and one unit for
each column after the diagonal (`ScaledGauss.Grid.allowance`). The bound has the same form
for both roundings and for entries of both signs, and what stands below the diagonal has no
part in it.

## Main results

– `ScaledGauss.Grid.le_of_upperResidual`: a residual that is computed at all is exact, so that
  a bound on every row is a bound on it;
– `ScaledGauss.Format.precise_checked`: how precise a checked format is;
– `ScaledGauss.Format.natAbs_gap_le`, `ScaledGauss.Format.upperResidual_le`: the bound in one
  row, and on the residual.
-/

namespace ScaledGauss

open Plan

/-- **What row `i` may be off by**, in raw units: the diagonal entry over the scale, rounded
up, and one unit for each column after it. -/
def Grid.allowance {n : Nat} (u : Grid n n) (scale : Nat) (i : Fin n) : Nat :=
  (u.entry i i).val.natAbs ⌈/⌉ scale + (n - 1 - i)

/-- **Dividing an error by the scale**: toward negative infinity an error is rounded up at
most, whatever its sign. -/
theorem natAbs_ediv_sub_le {scale d m : Nat} (hs : 0 < scale) {z y : Int}
    (h : (z - scale * y).natAbs ≤ d + m * scale) :
    (z / scale - y).natAbs ≤ d ⌈/⌉ scale + m := by
  have hs' : (0 : Int) < scale := by exact_mod_cast hs
  have hceil : d ≤ scale * (d ⌈/⌉ scale) := le_smul_ceilDiv hs
  generalize d ⌈/⌉ scale = c at *
  have hbound : (z - scale * y).natAbs ≤ scale * (c + m) := by
    rw [mul_add, mul_comm scale m]
    omega
  have hcast : ((scale * (c + m) : Nat) : Int) = scale * (c + m : Int) := by push_cast; rfl
  have hupper : z / scale ≤ y + (c + m) := by
    refine Int.ediv_le_of_le_mul hs' ?_
    rw [add_mul, mul_comm y, mul_comm _ (scale : Int)]
    omega
  have hlower : y - (c + m) ≤ z / scale := by
    refine (Int.le_ediv_iff_mul_le hs').mpr ?_
    rw [sub_mul, mul_comm y, mul_comm _ (scale : Int)]
    omega
  omega

/-! ### A residual that is computed is exact -/

/-- Every result of a computation part by part is that of a part. -/
theorem exists_of_mem_mapM {ε α β : Type} {f : α → Except ε β} {l : List α} {results : List β}
    (h : l.mapM f = .ok results) {b : β} (hb : b ∈ results) : ∃ a ∈ l, f a = .ok b := by
  induction l generalizing results with
  | nil =>
    obtain rfl : [] = results := Except.ok.inj h
    simp at hb
  | cons a l ih =>
    rw [List.mapM_cons] at h
    obtain ⟨first, ha, h⟩ := bind_eq_ok_iff.mp h
    obtain ⟨rest, hl, h⟩ := bind_eq_ok_iff.mp h
    obtain rfl : first :: rest = results := Except.ok.inj h
    rcases List.mem_cons.mp hb with rfl | hb
    · exact ⟨a, List.mem_cons_self, ha⟩
    · obtain ⟨a', ha', hfa'⟩ := ih hl hb
      exact ⟨a', List.mem_cons_of_mem a ha', hfa'⟩

namespace Grid

/-- A sum that does not leave its words is exact. -/
theorem eq_of_foldlM_add_mul {terms : List (Scaled × Scaled)} {z s : Int}
    (h : terms.foldlM (fun sum (a, b) => do
      Word.add 128 sum (← Word.mul 128 a.val b.val)) z = .ok s) : s = z + dot terms := by
  induction terms generalizing z with
  | nil => simpa [pure, Except.pure, eq_comm] using h
  | cons p terms ih =>
    rw [List.foldlM_cons] at h
    obtain ⟨sum, hsum, h⟩ := bind_eq_ok_iff.mp h
    obtain ⟨product, hproduct, hsum⟩ := bind_eq_ok_iff.mp hsum
    obtain ⟨-, rfl⟩ := Word.fit_eq_ok_iff.mp hproduct
    obtain ⟨-, rfl⟩ := Word.fit_eq_ok_iff.mp hsum
    rw [ih h, dot_cons, add_assoc]

/-- **The difference in a row**, if there is one, is that of the exact sum. -/
theorem eq_of_rowGap {fracBits i gap : Nat} {row x : List Scaled} {y : Scaled}
    (h : rowGap fracBits i row x y = .ok gap) :
    gap = (dot ((row.zip x).drop i) / pow2 fracBits - y.val).natAbs := by
  obtain ⟨sum, hsum, h⟩ := bind_eq_ok_iff.mp h
  obtain ⟨scaled, hscaled, h⟩ := bind_eq_ok_iff.mp h
  obtain ⟨difference, hdifference, h⟩ := bind_eq_ok_iff.mp h
  have hexact := eq_of_foldlM_add_mul hsum
  rw [zero_add] at hexact
  rw [Word.shiftRight] at hscaled
  split at hscaled
  · obtain rfl := Except.ok.inj hscaled
    obtain ⟨-, rfl⟩ := Word.fit_eq_ok_iff.mp hdifference
    rw [← Except.ok.inj h, hexact]
  · cases hscaled

/-- **The residual**, if there is one, is within a bound as soon as every row is. -/
theorem le_of_upperResidual {n fracBits bound r : Nat} {m : Grid n n} {x y : Column n}
    (h : ∀ i, (dot (m.rowTerms x i) / pow2 fracBits - (y.get i).val).natAbs ≤ bound)
    (hr : m.upperResidual x.toList y.toList fracBits = .ok r) : r ≤ bound := by
  obtain ⟨gaps, hgaps, hr⟩ := bind_eq_ok_iff.mp hr
  obtain rfl := Except.ok.inj hr
  refine (Nat.min_le_right _ _).trans (foldl_max_le (Nat.zero_le _) fun gap hgap => ?_)
  obtain ⟨⟨⟨row, b⟩, i⟩, hrow, hgap⟩ := exists_of_mem_mapM hgaps hgap
  rw [List.mem_zipIdx_iff_getElem?] at hrow
  obtain ⟨k, rfl, rfl, rfl⟩ := eq_of_mem_rows hrow
  rw [eq_of_rowGap hgap, drop_zip_eq]
  exact h k

end Grid

/-! ### Checked formats -/

namespace Format

variable {f : Format}

/-- **How precise a checked format is**: a product is off by at most one unit, and a quotient
leaves at most its divisor. -/
theorem precise_checked (hf : f.overflow = .checked) :
    f.arithmetic.Answers.Precise (pow2 f.fracBits) (pow2 f.fracBits) fun q => q.val.natAbs where
  add h := ((apply_checked_eq_ok_iff hf).mp h).2
  subtract h := ((apply_checked_eq_ok_iff hf).mp h).2
  multiply {p q r} h := by
    have hr : r.val = f.rounding.product (pow2 f.fracBits) (p.val * q.val) :=
      ((apply_checked_eq_ok_iff hf).mp h).2
    rw [hr]
    exact Rounding.product_bound _ (pow2_pos _) _
  divide {p q r} h := by
    obtain ⟨h0, hr⟩ := (apply_checked_eq_ok_iff hf).mp h
    have hq : q.val ≠ 0 := fun hc => h0 ⟨rfl, hc⟩
    have hr' : r.val = f.rounding.quotient (p.val * pow2 f.fracBits) q.val := hr
    rw [hr', mul_comm (pow2 f.fracBits : Int)]
    exact Rounding.quotient_bound _ hq _

section Rows

variable {n : Nat} {σ : Type} {held : σ} {a : Augmented n} {x : Column n}

/-- **The residual of one row** is within its allowance. -/
theorem natAbs_gap_le (hf : f.overflow = .checked) {i : Fin n}
    (h : a.Found f.arithmetic.Answers held f.arithmetic.zero x i) :
    (Grid.dot (a.matrix.rowTerms x i) / pow2 f.fracBits - (a.rhs.get i).val).natAbs ≤
      a.matrix.allowance (pow2 f.fracBits) i := by
  have hoff := Augmented.dot_rowTerms_off (precise_checked hf) rfl h
  rw [Grid.length_rowsBelow] at hoff
  exact natAbs_ediv_sub_le (pow2_pos _) hoff

/-- **The residual** is within the largest allowance of a row. -/
theorem upperResidual_le (hf : f.overflow = .checked)
    (h : ∀ i, a.Found f.arithmetic.Answers held f.arithmetic.zero x i) {r : Nat}
    (hr : a.matrix.upperResidual x.toList a.rhs.toList f.fracBits = .ok r) :
    r ≤ Finset.univ.sup (a.matrix.allowance (pow2 f.fracBits)) := by
  refine Grid.le_of_upperResidual (fun i => ?_) hr
  exact (natAbs_gap_le hf (h i)).trans (Finset.le_sup (Finset.mem_univ i))

/-- The words in which the residual is computed are wide enough as long as the dimension is a
size. -/
theorem exists_upperResidual (hf : f.overflow = .checked) (hn : n < pow2 64)
    (h : ∀ i, a.Found f.arithmetic.Answers held f.arithmetic.zero x i) :
    ∃ r, a.matrix.upperResidual x.toList a.rhs.toList f.fracBits = .ok r := by
  have hscale := f.pow2_fracBits_le
  have hn' : n < 0x10000000000000000 := hn
  have hbound : ∀ i terms, terms <+: a.matrix.rowTerms x i →
      (Grid.dot terms).natAbs ≤ 0x20000000000000000000000000000000 := by
    intro i terms ht
    have hterms := Augmented.natAbs_dot_le_of_found (precise_checked hf) rfl (h i) ht
    have hslack : n * pow2 f.fracBits ≤ 0x10000000000000000 * 0x40000000 :=
      Nat.mul_le_mul hn'.le hscale
    omega
  exact ⟨_, Grid.upperResidual_square (f.fracBits_le.trans_lt (by decide)) hbound⟩

end Rows

/-- **The accuracy of back substitution** in a checked format. If a triangular system is
solved, then in every row the exact sum over the scale is within the allowance of the
right-hand side, and the residual within the largest allowance; and so is the residual that
a solve reports, for the triangular system of the same report. -/
theorem accuracy (f : Format) (hf : f.overflow = .checked) :
    (∀ (n : Nat) (u : Grid n n) (y x : Column n),
      ((LinearSystem.ofAugmented (.join u y)).backSubstitute f.arithmetic.zero).eval
        f.arithmetic = .ok x →
      (∀ i, |(∑ j with i ≤ j, (u.entry i j).val * (x.get j).val) / pow2 f.fracBits -
          (y.get i).val| ≤ u.allowance (pow2 f.fracBits) i) ∧
      (∀ r, u.upperResidual x.toList y.toList f.fracBits = .ok r →
        r ≤ Finset.univ.sup (u.allowance (pow2 f.fracBits))) ∧
      (n < pow2 64 → ∃ r, u.upperResidual x.toList y.toList f.fracBits = .ok r)) ∧
    ∀ (c : Config) (matrix rhs : Array Scaled) (report : Report), c.format = f →
      (c.solve matrix rhs).outcome = .ok report →
      report.upper.upperResidual report.solution.toList report.rhs.toList f.fracBits =
          .ok report.residual ∧
        report.residual ≤ Finset.univ.sup (report.upper.allowance (pow2 f.fracBits)) := by
  refine ⟨fun n u y x h => ?_, ?_⟩
  · obtain ⟨-, hy⟩ := LinearSystem.yields_backSubstitute_iff.mp (eval_eq_ok_iff.mp h)
    have hfound := Augmented.found_of_yields hy
    refine ⟨fun i => ?_, fun r hr => ?_, fun hn => ?_⟩
    · have hgap := natAbs_gap_le hf (hfound i)
      rw [Augmented.matrix_join, Augmented.rhs_join, Grid.dot_rowTerms] at hgap
      rw [Int.abs_eq_natAbs]
      exact_mod_cast hgap
    · have hle := upperResidual_le (r := r) hf hfound
      rw [Augmented.matrix_join, Augmented.rhs_join] at hle
      exact hle hr
    · have hresidual := exists_upperResidual hf hn hfound
      rwa [Augmented.matrix_join, Augmented.rhs_join] at hresidual
  · rintro c matrix rhs report rfl h
    obtain ⟨a, ha, ⟨S, x⟩, hrun, hreport⟩ := Config.outcome_solve_eq_ok_iff.mp h
    obtain ⟨-, hfound⟩ := Augmented.yields_solve (eval_eq_ok_iff.mp hrun)
    obtain ⟨r, hr, hmade⟩ := bind_eq_ok_iff.mp hreport
    obtain rfl := Except.ok.inj hmade
    exact ⟨hr, upperResidual_le hf hfound hr⟩

/-- A triangle of both signs with entries left below it. -/
def coarseMatrix : Grid 3 3 :=
  #v[#v[⟨-29⟩, ⟨13⟩, ⟨-11⟩], #v[⟨5⟩, ⟨21⟩, ⟨-7⟩], #v[⟨-3⟩, ⟨2⟩, ⟨19⟩]]

/-- A right-hand side to go with it. -/
def coarseRhs : Column 3 := #v[⟨100⟩, ⟨-57⟩, ⟨40⟩]

/-- The configuration in which it is solved: three fractional bits, truncating, checked. -/
def coarseConfig : Config where
  dimension := 3
  format := {
    fracBits := 3
    rounding := .truncate
    overflow := .checked
    fracBits_le := three_le_maxFracBits }
  verbosity := 0

theorem accuracy_coarse :
    coarseConfig.format.overflow = .checked ∧
    (∃ x, ((LinearSystem.ofAugmented (.join coarseMatrix coarseRhs)).backSubstitute
        coarseConfig.format.arithmetic.zero).eval coarseConfig.format.arithmetic = .ok x ∧
      coarseMatrix.upperResidual x.toList coarseRhs.toList 3 = .ok 3 ∧
      3 ≤ Finset.univ.sup (coarseMatrix.allowance (pow2 3))) ∧
    ∃ report, (coarseConfig.solve coarseMatrix.toLists.flatten.toArray
        coarseRhs.toArray).outcome = .ok report ∧
      report.swaps = [⟨0, 1⟩] ∧ report.residual = 4 ∧
      report.residual ≤ Finset.univ.sup (report.upper.allowance (pow2 3)) := by
  obtain ⟨hsubstitution, hsolve⟩ := accuracy coarseConfig.format rfl
  refine ⟨rfl, ?_, ?_⟩
  · have hrun : (((LinearSystem.ofAugmented (.join coarseMatrix coarseRhs)).backSubstitute
        coarseConfig.format.arithmetic.zero).eval coarseConfig.format.arithmetic).toOption.map
          (fun x => coarseMatrix.upperResidual x.toList coarseRhs.toList 3) = some (.ok 3) := by
      decide +kernel
    obtain ⟨x, hx, hthree⟩ := exists_ok_of_view hrun
    obtain ⟨-, hle, -⟩ := hsubstitution 3 coarseMatrix coarseRhs x hx
    exact ⟨x, hx, hthree, hle 3 hthree⟩
  · have hrun : (coarseConfig.solve coarseMatrix.toLists.flatten.toArray
        coarseRhs.toArray).outcome.toOption.map
          (fun report => (report.swaps, report.residual)) = some ([⟨0, 1⟩], 4) := by
      decide +kernel
    obtain ⟨report, hreport, hview⟩ := exists_ok_of_view hrun
    obtain ⟨hswaps, hfour⟩ := Prod.mk.inj hview
    exact ⟨report, hreport, hswaps, hfour, (hsolve coarseConfig _ _ report rfl hreport).2⟩

end Format

end ScaledGauss

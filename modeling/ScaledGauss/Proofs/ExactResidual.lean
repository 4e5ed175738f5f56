import Mathlib.Algebra.BigOperators.Fin
import Mathlib.Data.Finset.Lattice.Fold
import Mathlib.Data.Rat.Floor
import Mathlib.Order.Lattice.Nat
import ScaledGauss.Proofs.Residual

/-!
# The residual of systems of any shape

The residual is defined for a matrix of any shape and for vectors of any lengths: a row without
a right-hand side is not compared, a column without an unknown is not summed, and a row that
begins after the last of its columns has the empty sum. This file says what it is in those
cases too, without words, shifts and lists: the sum of a row is a finite sum of integers
(`ScaledGauss.Grid.exactSum`), dividing it by the scale is the floor of a rational number
(`ScaledGauss.Grid.flooredSum`), and the residual is the supremum of the differences, cut at the
greatest signed 64-bit integer (`ScaledGauss.Grid.upperResidual_exact`).

A word that is too narrow for an intermediate result shows as a fault, so a residual that is
returned has been computed in words that are wide enough. They are as long as there are fewer
than `2 ^ 61` unknowns, since a row then has less than that many products, each of at most
`2 ^ 62`. What does not depend on lengths is the shift: from 128 places on it is a fault, and it
is made as soon as there is a row to compare.
-/

namespace ScaledGauss

namespace Grid

variable {r c : ℕ}

/-! ### The exact value -/

/-- **The exact sum of row `i`** from the diagonal on, over the columns that have an unknown. -/
def exactSum (m : Grid r c) (x : List Scaled) (i : Fin r) : ℤ :=
  ∑ j : Fin (min c x.length) with i.val ≤ j.val,
    (m.entry i (j.castLE (Nat.min_le_left _ _))).val *
      (x.get (j.castLE (Nat.min_le_right _ _))).val

/-- The exact sum of row `i` over the scale, rounded down. -/
def flooredSum (m : Grid r c) (x : List Scaled) (fracBits : ℕ) (i : Fin r) : ℤ :=
  ⌊(m.exactSum x i : ℚ) / 2 ^ fracBits⌋

/-- **The difference in row `i`**, one of those that have a right-hand side. -/
def exactGap (m : Grid r c) (x y : List Scaled) (fracBits : ℕ) (i : Fin (min r y.length)) : ℤ :=
  m.flooredSum x fracBits (i.castLE (Nat.min_le_left _ _)) -
    (y.get (i.castLE (Nat.min_le_right _ _))).val

/-! ### Rows -/

/-- The sum over the end of a list, as a sum over indices. -/
theorem sum_map_drop {α : Type} (f : α → ℤ) (l : List α) (i : ℕ) :
    ((l.drop i).map f).sum = ∑ j : Fin l.length with i ≤ j.val, f (l.get j) := by
  induction l generalizing i with
  | nil => simp
  | cons a l ih =>
    rw [Finset.sum_filter]
    change _ = ∑ j : Fin (l.length + 1), _
    rw [Fin.sum_univ_succ]
    cases i with
    | zero => simp
    | succ i =>
      have hrest := ih i
      rw [Finset.sum_filter] at hrest
      simpa using hrest

/-- **The products that a row is summed from** add up to its exact sum. -/
theorem dot_eq_exactSum (m : Grid r c) (x : List Scaled) (i : Fin r) :
    dot (((m.get i).toList.zip x).drop i) = m.exactSum x i := by
  have hlength : ((m.get i).toList.zip x).length = min c x.length := by simp
  rw [dot, sum_map_drop, exactSum, Finset.sum_filter, Finset.sum_filter]
  refine Fintype.sum_equiv (finCongr hlength) _ _ fun j => ?_
  simp [entry, vector_get]

/-- **The difference in a row** of a matrix of any shape, if its sums are not too large. -/
theorem rowGap_eq_exactGap {m : Grid r c} {x y : List Scaled} {fracBits : ℕ}
    (hx : x.length < 2 ^ 61) (hk : fracBits < 128) (i : Fin (min r y.length)) :
    rowGap fracBits i (m.get (i.castLE (Nat.min_le_left _ _))).toList x
        (y.get (i.castLE (Nat.min_le_right _ _))) =
      .ok (m.exactGap x y fracBits i).natAbs := by
  have hbound : ∀ terms, terms <+: ((m.get (i.castLE (Nat.min_le_left _ _))).toList.zip x).drop i →
      (dot terms).natAbs ≤ 0x20000000000000000000000000000000 := by
    intro terms hterms
    have hlength : terms.length ≤ x.length := by
      have := hterms.length_le
      rw [List.length_drop, List.length_zip] at this
      omega
    calc (dot terms).natAbs ≤ terms.length * 0x4000000000000000 := natAbs_dot_le terms
      _ ≤ 2 ^ 61 * 0x4000000000000000 := Nat.mul_le_mul_right _ (hlength.trans hx.le)
      _ ≤ 0x20000000000000000000000000000000 := by norm_num
  have hsum := m.dot_eq_exactSum x (i.castLE (Nat.min_le_left _ _))
  rw [Fin.val_castLE] at hsum
  have hfloor : ∀ z : ℤ, ⌊(z : ℚ) / 2 ^ fracBits⌋ = z / pow2 fracBits := by
    intro z
    have hcast := Rat.floor_intCast_div_natCast z (2 ^ fracBits)
    push_cast at hcast
    rw [hcast]
    exact congrArg (z / ·) (Nat.cast_pow 2 fracBits).symm
  rw [rowGap_eq hk hbound, hsum, exactGap, flooredSum, hfloor]

/-- A row is summed, or leaves its words. -/
theorem rowSum_cases (i : ℕ) (row x : List Scaled) :
    (∃ sum, rowSum i row x = .ok sum) ∨ ∃ fault, rowSum i row x = .error (.fault fault) := by
  have hfit : ∀ z, (∃ y, Word.fit 128 z = .ok y) ∨
      ∃ fault, Word.fit 128 z = .error (.fault fault) := by
    intro z
    rw [Word.fit]
    split
    · exact .inl ⟨z, rfl⟩
    · exact .inr ⟨_, rfl⟩
  rw [rowSum]
  generalize (row.zip x).drop i = terms
  generalize (0 : ℤ) = z
  induction terms generalizing z with
  | nil => exact .inl ⟨z, rfl⟩
  | cons p terms ih =>
    obtain ⟨a, b⟩ := p
    rw [List.foldlM_cons]
    simp only [Word.mul, Word.add]
    rcases hfit (a.val * b.val) with ⟨product, hproduct⟩ | ⟨fault, hfault⟩
    · rw [hproduct, ok_bind]
      rcases hfit (z + product) with ⟨sum, hsum⟩ | ⟨fault, hfault⟩
      · rw [hsum, ok_bind]
        exact ih sum
      · rw [hfault]
        exact .inr ⟨fault, rfl⟩
    · rw [hfault]
      exact .inr ⟨fault, rfl⟩

/-- **From 128 places on** the shift is a fault, whatever the row. -/
theorem rowGap_of_le {fracBits : ℕ} (hk : 128 ≤ fracBits) (i : ℕ) (row x : List Scaled)
    (y : Scaled) : ∃ fault, rowGap fracBits i row x y = .error (.fault fault) := by
  rw [rowGap]
  rcases rowSum_cases i row x with ⟨sum, hsum⟩ | ⟨fault, hfault⟩
  · rw [hsum, ok_bind, Word.shiftRight, if_neg (Nat.not_lt.mpr hk)]
    exact ⟨_, rfl⟩
  · rw [hfault]
    exact ⟨fault, rfl⟩

/-! ### All rows -/

theorem le_foldl_max {gaps : List ℕ} {start gap : ℕ} (h : gap ∈ gaps ∨ gap ≤ start) :
    gap ≤ gaps.foldl Nat.max start := by
  induction gaps generalizing start with
  | nil => exact h.resolve_left List.not_mem_nil
  | cons first gaps ih =>
    rw [List.foldl_cons]
    refine ih ?_
    rw [List.mem_cons, or_assoc, or_left_comm] at h
    exact h.imp_right fun hfirst => le_max_iff.mpr (hfirst.symm.imp_right Nat.le_of_eq)

/-- The largest of numbers given by an index is their supremum. -/
theorem foldl_max_eq_sup {n : ℕ} (gap : Fin n → ℕ) :
    ((List.finRange n).map gap).foldl Nat.max 0 = Finset.univ.sup gap := by
  refine le_antisymm (foldl_max_le (Nat.zero_le _) ?_) (Finset.sup_le fun i _ => ?_)
  · intro g hg
    obtain ⟨i, -, rfl⟩ := List.mem_map.mp hg
    exact Finset.le_sup (Finset.mem_univ i)
  · exact le_foldl_max (.inl (List.mem_map_of_mem (List.mem_finRange i)))

/-- **The residual of a matrix of any shape** is the largest difference of a row. -/
theorem upperResidual_eq_sup {m : Grid r c} {x y : List Scaled} {fracBits : ℕ}
    (hx : x.length < 2 ^ 61) (hk : fracBits < 128) :
    m.upperResidual x y fracBits = .ok (min (2 ^ 63 - 1)
      (Finset.univ.sup fun i => (m.exactGap x y fracBits i).natAbs)) := by
  have hrows : (m.toLists.zip y).zipIdx = (List.finRange (min r y.length)).map fun i =>
      (((m.get (i.castLE (Nat.min_le_left _ _))).toList,
        y.get (i.castLE (Nat.min_le_right _ _))), i.val) := by
    refine List.ext_getElem (by simp [toLists]) fun i h1 h2 => ?_
    simp [toLists, vector_get]
  have hgaps := mapM_eq_ok (l := List.finRange (min r y.length)) fun i _ =>
    rowGap_eq_exactGap (m := m) hx hk i
  rw [upperResidual, hrows, List.mapM_map]
  refine (congrArg (· >>= _) hgaps).trans ?_
  rw [ok_bind, foldl_max_eq_sup]
  rfl

/-- A residual is zero exactly when no row is off. -/
theorem min_sup_eq_zero_iff {n : ℕ} (gap : Fin n → ℤ) :
    min (2 ^ 63 - 1) (Finset.univ.sup fun i => (gap i).natAbs) = 0 ↔ ∀ i, gap i = 0 := by
  have hsup : (Finset.univ.sup fun i => (gap i).natAbs) = 0 ↔ ∀ i, gap i = 0 := by
    rw [← bot_eq_zero, Finset.sup_eq_bot_iff]
    simp
  rw [← hsup]
  omega

/-- **From 128 places on** the residual is a fault if there is a row to compare. -/
theorem upperResidual_of_le {fracBits : ℕ} (hk : 128 ≤ fracBits) (m : Grid r c)
    (x y : List Scaled) :
    (∃ fault, m.upperResidual x y fracBits = .error (.fault fault)) ↔ 0 < min r y.length := by
  have hlength : ((m.toLists.zip y).zipIdx).length = min r y.length := by simp [toLists]
  rw [upperResidual, ← hlength]
  cases (m.toLists.zip y).zipIdx with
  | nil =>
    refine iff_of_false ?_ (lt_irrefl 0)
    rintro ⟨fault, hfault⟩
    cases hfault
  | cons first rows =>
    obtain ⟨⟨row, b⟩, i⟩ := first
    obtain ⟨fault, hfault⟩ := rowGap_of_le hk i row x b
    refine iff_of_true ⟨fault, ?_⟩ (Nat.succ_pos _)
    simp only [List.mapM_cons, hfault]
    rfl

/-- **The residual is the exact one.** Take a matrix of any shape and vectors of any lengths,
with fewer than `2 ^ 61` unknowns, and a scale of fewer than 128 places. Then no intermediate
result leaves its word, and the residual is the largest difference, over the rows that have a
right-hand side, between the exact sum of the row over the scale, rounded down, and the
right-hand side, cut at the greatest signed 64-bit integer; it is zero exactly when no row is
off. For any lengths and any scale, entries below the diagonal have no part in it; and from 128
places on it is a fault exactly when there is a row to compare. -/
theorem upperResidual_exact (m : Grid r c) (x y : List Scaled) (fracBits : ℕ) :
    (x.length < 2 ^ 61 → fracBits < 128 →
      m.upperResidual x y fracBits = .ok (min (2 ^ 63 - 1)
        (Finset.univ.sup fun i => (m.exactGap x y fracBits i).natAbs)) ∧
      (m.upperResidual x y fracBits = .ok 0 ↔ ∀ i : Fin (min r y.length),
        m.flooredSum x fracBits (i.castLE (Nat.min_le_left _ _)) =
          (y.get (i.castLE (Nat.min_le_right _ _))).val)) ∧
    (∀ m' : Grid r c, (∀ (i : Fin r) (j : Fin c), i.val ≤ j.val → m'.entry i j = m.entry i j) →
      m'.upperResidual x y fracBits = m.upperResidual x y fracBits) ∧
    (128 ≤ fracBits → ((∃ fault, m.upperResidual x y fracBits = .error (.fault fault)) ↔
      0 < min r y.length)) := by
  refine ⟨fun hx hk => ?_, fun m' h => upperResidual_congr h x y fracBits,
    fun hk => upperResidual_of_le hk m x y⟩
  have hresidual := upperResidual_eq_sup (m := m) (y := y) hx hk
  refine ⟨hresidual, ?_⟩
  rw [hresidual, Except.ok.injEq, min_sup_eq_zero_iff]
  simp only [exactGap, sub_eq_zero]

/-- A matrix with more rows than columns, given the entry below its diagonal. -/
def raggedMatrix (below : Scaled) : Grid 4 2 :=
  #v[#v[⟨-3⟩, ⟨1⟩], #v[below, ⟨5⟩], #v[⟨8⟩, ⟨6⟩], #v[⟨9⟩, ⟨4⟩]]

/-- Three unknowns for two columns, and three right-hand sides for four rows. The first row has
the sum `-1`, which is rounded down at one place, and the third has the empty sum. -/
theorem upperResidual_exact_ragged :
    ([⟨1⟩, ⟨2⟩, ⟨4⟩] : List Scaled).length < 2 ^ 61 ∧
    (raggedMatrix ⟨7⟩).upperResidual [⟨1⟩, ⟨2⟩, ⟨4⟩] [⟨-1⟩, ⟨5⟩, ⟨-7⟩] 1 = .ok 7 ∧
    min (2 ^ 63 - 1) (Finset.univ.sup fun i => ((raggedMatrix ⟨7⟩).exactGap
      [⟨1⟩, ⟨2⟩, ⟨4⟩] [⟨-1⟩, ⟨5⟩, ⟨-7⟩] 1 i).natAbs) = 7 ∧
    (∀ i : Fin (min 4 ([⟨-1⟩, ⟨5⟩, ⟨0⟩] : List Scaled).length),
      (raggedMatrix ⟨7⟩).flooredSum [⟨1⟩, ⟨2⟩, ⟨4⟩] 1 (i.castLE (Nat.min_le_left _ _)) =
        (([⟨-1⟩, ⟨5⟩, ⟨0⟩] : List Scaled).get (i.castLE (Nat.min_le_right _ _))).val) ∧
    (raggedMatrix .greatest).upperResidual [⟨1⟩, ⟨2⟩, ⟨4⟩] [⟨-1⟩, ⟨5⟩, ⟨-7⟩] 1 = .ok 7 ∧
    (∃ fault, (raggedMatrix ⟨7⟩).upperResidual [] [⟨0⟩] 128 = .error (.fault fault)) ∧
    ¬ ∃ fault, (raggedMatrix ⟨7⟩).upperResidual [⟨1⟩] [] 128 = .error (.fault fault) := by
  have hseven : (raggedMatrix ⟨7⟩).upperResidual [⟨1⟩, ⟨2⟩, ⟨4⟩] [⟨-1⟩, ⟨5⟩, ⟨-7⟩] 1 = .ok 7 := by
    decide +kernel
  have hzero : (raggedMatrix ⟨7⟩).upperResidual [⟨1⟩, ⟨2⟩, ⟨4⟩] [⟨-1⟩, ⟨5⟩, ⟨0⟩] 1 = .ok 0 := by
    decide +kernel
  have habove : ∀ (i : Fin 4) (j : Fin 2), i.val ≤ j.val →
      (raggedMatrix .greatest).entry i j = (raggedMatrix ⟨7⟩).entry i j := by
    decide +kernel
  obtain ⟨hexact, hbelow, -⟩ := upperResidual_exact (raggedMatrix ⟨7⟩) [⟨1⟩, ⟨2⟩, ⟨4⟩]
    [⟨-1⟩, ⟨5⟩, ⟨-7⟩] 1
  obtain ⟨hexact', -⟩ := upperResidual_exact (raggedMatrix ⟨7⟩) [⟨1⟩, ⟨2⟩, ⟨4⟩]
    [⟨-1⟩, ⟨5⟩, ⟨0⟩] 1
  obtain ⟨-, -, hshift⟩ := upperResidual_exact (raggedMatrix ⟨7⟩) [] [⟨0⟩] 128
  obtain ⟨-, -, hshift'⟩ := upperResidual_exact (raggedMatrix ⟨7⟩) [⟨1⟩] [] 128
  obtain ⟨hsup, -⟩ := hexact (by decide) (by decide)
  obtain ⟨-, hrows⟩ := hexact' (by decide) (by decide)
  refine ⟨by decide, hseven, Except.ok.inj (hsup.symm.trans hseven), hrows.mp hzero,
    (hbelow _ habove).trans hseven, (hshift le_rfl).mpr (by decide), fun h => ?_⟩
  exact absurd ((hshift' le_rfl).mp h) (by decide)

/-- Three of the largest products leave 64 bits, and the residual is cut. -/
example :
    upperResidual (#v[.replicate 3 .least] : Grid 1 3) [.least, .least, .least] [⟨0⟩] 0 =
      .ok 0x7fffffffffffffff := by
  decide +kernel

end Grid

end ScaledGauss

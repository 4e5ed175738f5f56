import Mathlib.Algebra.BigOperators.Group.Finset.Basic
import Mathlib.Algebra.BigOperators.Group.List.Basic
import Mathlib.Data.Fintype.Basic
import Mathlib.Data.List.Forall2
import ScaledGauss.Proofs.Elimination
import ScaledGauss.Proofs.Rounding
import ScaledGauss.Proofs.Substitution
import ScaledGauss.Residual

/-!
# The residual is an exact integer

The residual is computed in 128-bit words. As long as the sums that occur on the way are
far from leaving them, it is an integer formula: in each row the exact sum of products,
divided by the scale toward negative infinity, less the right-hand side, in magnitude
(`ScaledGauss.Grid.rowGap_eq`), and of those the largest
(`ScaledGauss.Grid.upperResidual_eq`). The sums cannot be large in a matrix with fewer
than `2 ^ 61` columns, whatever its entries (`ScaledGauss.Grid.natAbs_dot_le`). What stands
below the diagonal is not looked at (`ScaledGauss.Grid.upperResidual_congr`).

For a square matrix and a vector of the same length, the products of row `i` are those of
the diagonal and of the columns after it (`ScaledGauss.Grid.drop_zip_eq`,
`ScaledGauss.Grid.dot_rowTerms`).
-/

namespace ScaledGauss

/-- A computation of which every part has a result has the list of them. -/
theorem mapM_eq_ok {ε α β : Type} {f : α → Except ε β} {g : α → β} {l : List α}
    (h : ∀ a ∈ l, f a = .ok (g a)) : l.mapM f = .ok (l.map g) := by
  induction l with
  | nil => rfl
  | cons a l ih =>
    rw [List.mapM_cons, h a List.mem_cons_self, ok_bind,
      ih fun b hb => h b (List.mem_cons_of_mem a hb)]
    rfl

/-- Computations whose parts agree one by one agree. -/
theorem mapM_congr {ε α β γ : Type} {f : α → Except ε γ} {g : β → Except ε γ} {l : List α}
    {k : List β} (h : List.Forall₂ (fun a b => f a = g b) l k) : l.mapM f = k.mapM g := by
  induction h with
  | nil => rfl
  | cons hab _ ih => rw [List.mapM_cons, List.mapM_cons, hab, ih]

theorem Word.fits_of_natAbs_lt_wide {z : Int} (h : z.natAbs < 0x80000000000000000000000000000000) :
    Word.Fits 128 z := by
  have hp : pow2 (128 - 1) = 0x80000000000000000000000000000000 := rfl
  constructor <;> omega

namespace Grid

/-! ### Rows -/

/-- **The exact sum of products** of a list of pairs. -/
def dot (terms : List (Scaled × Scaled)) : Int := (terms.map fun (a, b) => a.val * b.val).sum

@[simp] theorem dot_nil : dot [] = 0 := rfl

@[simp] theorem dot_cons (a b : Scaled) (terms : List (Scaled × Scaled)) :
    dot ((a, b) :: terms) = a.val * b.val + dot terms := rfl

/-- A sum of products is at most as large as that many of the largest product. -/
theorem natAbs_dot_le (terms : List (Scaled × Scaled)) :
    (dot terms).natAbs ≤ terms.length * 0x4000000000000000 := by
  induction terms with
  | nil => simp
  | cons p terms ih =>
    obtain ⟨a, b⟩ := p
    have hp := Scaled.natAbs_val_mul_le a b
    have hadd := Int.natAbs_add_le (a.val * b.val) (dot terms)
    rw [dot_cons, List.length_cons, Nat.add_mul]
    omega

/-- **A row is summed exactly** if no sum on the way is too large for its word. -/
theorem foldlM_add_mul_eq {terms : List (Scaled × Scaled)} {z : Int}
    (h : ∀ terms', terms' <+: terms → Word.Fits 128 (z + dot terms')) :
    terms.foldlM (fun sum (a, b) => do
      Word.add 128 sum (← Word.mul 128 a.val b.val)) z = .ok (z + dot terms) := by
  induction terms generalizing z with
  | nil => simp [pure, Except.pure]
  | cons p terms ih =>
    obtain ⟨a, b⟩ := p
    have hm : Word.Fits 128 (a.val * b.val) := by
      have := Scaled.natAbs_val_mul_le a b
      exact Word.fits_of_natAbs_lt_wide (by omega)
    have hs : Word.Fits 128 (z + a.val * b.val) := by
      simpa using h [(a, b)] ⟨terms, rfl⟩
    have hrest : ∀ terms', terms' <+: terms → Word.Fits 128 (z + a.val * b.val + dot terms') := by
      rintro terms' ⟨rest, rfl⟩
      simpa [add_assoc] using h ((a, b) :: terms') ⟨rest, rfl⟩
    rw [List.foldlM_cons]
    simp only [Word.mul, Word.fit_eq_ok hm, ok_bind, Word.add, Word.fit_eq_ok hs]
    rw [dot_cons, ← add_assoc]
    exact ih hrest

/-- **The difference in a row** is that of the exact sum. -/
theorem rowGap_eq {fracBits i : Nat} {row x : List Scaled} {y : Scaled} (hk : fracBits < 128)
    (h : ∀ terms, terms <+: (row.zip x).drop i →
      (dot terms).natAbs ≤ 0x20000000000000000000000000000000) :
    rowGap fracBits i row x y =
      .ok (dot ((row.zip x).drop i) / pow2 fracBits - y.val).natAbs := by
  have hsum : rowSum i row x = .ok (dot ((row.zip x).drop i)) := by
    have := foldlM_add_mul_eq (z := 0) fun terms ht => by
      have := h terms ht
      exact Word.fits_of_natAbs_lt_wide (by omega)
    rwa [zero_add] at this
  have hdiv : (dot ((row.zip x).drop i) / pow2 fracBits).natAbs ≤
      (dot ((row.zip x).drop i)).natAbs := Int.natAbs_ediv_le_natAbs _ _
  have hbound := h _ (List.prefix_refl _)
  have hy := y.natAbs_val_le
  have hfit : Word.Fits 128 (dot ((row.zip x).drop i) / pow2 fracBits - y.val) :=
    Word.fits_of_natAbs_lt_wide (by omega)
  rw [rowGap, hsum, ok_bind, Word.shiftRight, if_pos hk, ok_bind, Word.sub, Word.fit_eq_ok hfit]
  rfl

/-! ### All rows -/

/-- **The residual is the largest difference**, if every row has one. -/
theorem upperResidual_eq {r c : Nat} {m : Grid r c} {x y : List Scaled} {fracBits : Nat}
    (gap : Nat → Nat)
    (h : ∀ i row b, (m.toLists.zip y)[i]? = some (row, b) →
      rowGap fracBits i row x b = .ok (gap i)) :
    m.upperResidual x y fracBits =
      .ok (Nat.min residualLimit
        (((List.range (m.toLists.zip y).length).map gap).foldl Nat.max 0)) := by
  have hmap : ((m.toLists.zip y).zipIdx.map fun p => gap p.2) =
      (List.range (m.toLists.zip y).length).map gap := by
    refine List.ext_getElem (by simp) fun i h1 h2 => ?_
    simp
  rw [upperResidual, mapM_eq_ok (g := fun p => gap p.2), ok_bind, hmap]
  · rfl
  · rintro ⟨⟨row, b⟩, i⟩ hp
    exact h i row b (by simpa [List.mem_zipIdx_iff_getElem?] using hp)

/-- **The residual only reads the upper triangle.** -/
theorem upperResidual_congr {r c : Nat} {m m' : Grid r c}
    (h : ∀ (i : Fin r) (j : Fin c), i.val ≤ j.val → m.entry i j = m'.entry i j)
    (x y : List Scaled) (fracBits : Nat) :
    m.upperResidual x y fracBits = m'.upperResidual x y fracBits := by
  have hrow : ∀ (i : Fin r) (b : Scaled), rowGap fracBits i (m.get i).toList x b =
      rowGap fracBits i (m'.get i).toList x b := by
    intro i b
    have hterms : ((m.get i).toList.zip x).drop i = ((m'.get i).toList.zip x).drop i := by
      refine List.ext_getElem (by simp) fun j h1 h2 => ?_
      have hj : i.val + j < c := by
        rw [List.length_drop, List.length_zip, Vector.length_toList] at h1
        omega
      simpa [entry, vector_get] using h i ⟨i.val + j, hj⟩ (Nat.le_add_right _ _)
    rw [rowGap, rowGap, rowSum, rowSum, hterms]
  rw [upperResidual, upperResidual, mapM_congr (k := (m'.toLists.zip y).zipIdx)]
  refine List.forall₂_iff_get.mpr ⟨by simp [toLists], fun i h1 h2 => ?_⟩
  have hi : i < r := by
    simp only [toLists, List.length_zipIdx, List.length_zip, List.length_map,
      Vector.length_toList] at h1
    omega
  simpa [toLists, vector_get] using hrow ⟨i, hi⟩ _

/-- The largest of several numbers is within a bound as soon as each of them is. -/
theorem foldl_max_le {gaps : List Nat} {start bound : Nat} (hs : start ≤ bound)
    (h : ∀ gap ∈ gaps, gap ≤ bound) : gaps.foldl Nat.max start ≤ bound := by
  induction gaps generalizing start with
  | nil => exact hs
  | cons gap gaps ih =>
    rw [List.foldl_cons]
    exact ih (Nat.max_le.mpr ⟨hs, h gap List.mem_cons_self⟩)
      fun gap' hgap' => h gap' (List.mem_cons_of_mem gap hgap')

/-! ### Square matrices -/

variable {n : Nat}

/-- **The products of row `i`**: the diagonal entry with its unknown, and the entries after
it with theirs. -/
def rowTerms (m : Grid n n) (x : Column n) (i : Fin n) : List (Scaled × Scaled) :=
  (m.entry i i, x.get i) :: (rowsBelow i).map fun j => (m.entry i j, x.get j)

theorem length_rowTerms_le (m : Grid n n) (x : Column n) (i : Fin n) :
    (m.rowTerms x i).length ≤ n + 1 := by
  have : (rowsBelow i).length ≤ (List.finRange n).length := List.length_filter_le _ _
  simpa [rowTerms] using this

/-- The rows below row `i` are what is left of all rows. -/
theorem rowsBelow_eq_drop (i : Fin n) : rowsBelow i = (List.finRange n).drop (i.val + 1) := by
  have hsplit := List.take_append_drop (i.val + 1) (List.finRange n)
  have htake : ∀ k ∈ (List.finRange n).take (i.val + 1), ¬i < k := by
    intro k hk
    obtain ⟨t, ht, rfl⟩ := List.mem_take_iff_getElem.mp hk
    rw [List.getElem_finRange, Fin.lt_def]
    simp only [Fin.val_cast]
    omega
  have hdrop : ∀ k ∈ (List.finRange n).drop (i.val + 1), i < k := by
    intro k hk
    obtain ⟨t, ht, rfl⟩ := List.mem_drop_iff_getElem.mp hk
    rw [List.getElem_finRange, Fin.lt_def]
    simp only [Fin.val_cast]
    omega
  rw [rowsBelow, ← hsplit, List.filter_append,
    List.filter_eq_nil_iff.mpr fun k hk => by simpa using htake k hk,
    List.filter_eq_self.mpr fun k hk => by simpa using hdrop k hk, List.nil_append, hsplit]

theorem length_rowsBelow (i : Fin n) : (rowsBelow i).length = n - 1 - i := by
  rw [rowsBelow_eq_drop, List.length_drop, List.length_finRange]
  omega

/-- **The products of row `i` add up** to its sum from the diagonal on. -/
theorem dot_rowTerms (m : Grid n n) (x : Column n) (i : Fin n) :
    dot (m.rowTerms x i) = ∑ j with i ≤ j, (m.entry i j).val * (x.get j).val := by
  have hlist : dot ((rowsBelow i).map fun j => (m.entry i j, x.get j)) =
      ∑ j ∈ (rowsBelow i).toFinset, (m.entry i j).val * (x.get j).val := by
    rw [List.sum_toFinset _ (nodup_rowsBelow i), dot, List.map_map]
    rfl
  have hcols : (Finset.univ.filter fun j => i ≤ j) = insert i (rowsBelow i).toFinset := by
    ext j
    simp [le_iff_eq_or_lt, eq_comm]
  rw [hcols, Finset.sum_insert (by simp), rowTerms, dot_cons, hlist]

/-- A row and the unknowns, paired from the diagonal on. -/
theorem drop_zip_eq (m : Grid n n) (x : Column n) (i : Fin n) :
    ((m.get i).toList.zip x.toList).drop i = m.rowTerms x i := by
  have hzip : (m.get i).toList.zip x.toList =
      (List.finRange n).map fun j => (m.entry i j, x.get j) := by
    refine List.ext_getElem (by simp) fun j h1 h2 => ?_
    simp [entry, vector_get]
  rw [hzip, ← List.map_drop, List.drop_eq_getElem_cons (by simp), List.map_cons, rowTerms,
    rowsBelow_eq_drop]
  simp

/-- The rows of a square system, each with its right-hand side. -/
theorem eq_of_mem_rows {m : Grid n n} {y : Column n} {i : Nat} {row : List Scaled} {b : Scaled}
    (h : (m.toLists.zip y.toList)[i]? = some (row, b)) :
    ∃ k : Fin n, k.val = i ∧ (m.get k).toList = row ∧ y.get k = b := by
  obtain ⟨hlt, hget⟩ := List.getElem?_eq_some_iff.mp h
  have hi : i < n := by simpa [toLists] using hlt
  refine ⟨⟨i, hi⟩, rfl, ?_, ?_⟩
  · simpa [toLists, vector_get] using congrArg Prod.fst hget
  · simpa [vector_get] using congrArg Prod.snd hget

/-- **The residual of a square system**: the largest difference of a row, in raw units. -/
theorem upperResidual_square {m : Grid n n} {x y : Column n} {fracBits : Nat}
    (hk : fracBits < 128)
    (h : ∀ i terms, terms <+: m.rowTerms x i →
      (dot terms).natAbs ≤ 0x20000000000000000000000000000000) :
    m.upperResidual x.toList y.toList fracBits =
      .ok (Nat.min residualLimit (((List.finRange n).map fun i =>
        (dot (m.rowTerms x i) / pow2 fracBits - (y.get i).val).natAbs).foldl Nat.max 0)) := by
  have hlen : (m.toLists.zip y.toList).length = n := by simp [toLists]
  let gap : Fin n → Nat := fun i => (dot (m.rowTerms x i) / pow2 fracBits - (y.get i).val).natAbs
  have hgaps : ((List.range n).map fun i => if hi : i < n then gap ⟨i, hi⟩ else 0) =
      (List.finRange n).map gap := by
    refine List.ext_getElem (by simp) fun i h1 h2 => ?_
    have hi : i < n := by simpa using h1
    simp [hi]
  have hresidual := upperResidual_eq (m := m) (x := x.toList) (y := y.toList)
    (fun i => if hi : i < n then gap ⟨i, hi⟩ else 0) fun i row b hi => by
      obtain ⟨k, rfl, rfl, rfl⟩ := eq_of_mem_rows hi
      have hdrop := drop_zip_eq m x k
      have hbound := h k
      rw [← hdrop] at hbound
      rw [dif_pos k.isLt, rowGap_eq hk hbound, hdrop]
  rw [hresidual, hlen, hgaps]

end Grid

end ScaledGauss

import Mathlib.Logic.Equiv.Basic
import ScaledGauss.LinearSystem
import ScaledGauss.Proofs.Yields

/-!
# What one step of an elimination does

An elimination changes its state in two ways only: it exchanges two rows from the
current column onward, and it reduces the rows below the pivot. This file says once
what each of the two does to every entry, every multiplier and the record, for answers
of any law, and packages the induction over a whole run: a property of the number of
finished steps and the state holds at the end as soon as each exchange and each
reduction keeps it (`ScaledGauss.Plan.Yields.eliminate_induction`). No later file opens
the loops again.

## Main definitions

– `ScaledGauss.Stage.Reduced`: two states with a reduction between them;
– `ScaledGauss.Stage.Recorded`: a record of exchanges that is in order.

## Main results

– `ScaledGauss.Stage.entry_exchange`: an exchange reads the other row of the two;
– `ScaledGauss.Stage.coefficient_scan_le`: a scan brings the largest entry to the pivot;
– `ScaledGauss.Stage.reduced_of_yields`: what a reduction leaves behind;
– `ScaledGauss.Plan.Yields.eliminate_induction`: the invariant of an elimination;
– `ScaledGauss.LinearSystem.yields_eliminate_iff`,
  `ScaledGauss.LinearSystem.yields_solve_iff`: the check of the shape only asks for an
  equation.
-/

namespace ScaledGauss

open Plan

theorem nodup_rowsBelow {n : Nat} (i : Fin n) : (rowsBelow i).Nodup :=
  (List.nodup_finRange n).filter _

theorem nodup_columnsFrom {n : Nat} (i : Fin n) : (columnsFrom i).Nodup :=
  (List.nodup_finRange (n + 1)).filter _

/-- **An exchange within a system** of `n` rows. -/
structure Swap.Within (s : Swap) (n : Nat) : Prop where
  /-- The diagonal row is one of them. -/
  step_lt : s.step < n
  /-- So is the row exchanged with it. -/
  row_lt : s.row < n

instance (s : Swap) (n : Nat) : Decidable (s.Within n) :=
  decidable_of_iff (s.step < n ∧ s.row < n) ⟨fun h => ⟨h.1, h.2⟩, fun h => ⟨h.1, h.2⟩⟩

/-- A grid exchanged twice is the grid. -/
theorem Grid.swapFrom_swapFrom {r c : Nat} (g : Grid r c) (i k : Fin r) (start : Nat) :
    (g.swapFrom i k start).swapFrom i k start = g := by
  ext l j
  simp only [entry_swapFrom]
  grind

namespace Stage

variable {n : Nat} {R : Law} {i : Fin n} {S S' T : Stage n}

/-- The entries of the triangle are the coefficients. -/
theorem entry_upper (S : Stage n) (k i : Fin n) : S.upper.entry k i = S.coefficient k i :=
  Grid.entry_ofEntries _ _ _

/-! ### Exchanges -/

/-- **An exchange** reads the other row of the two, from its column onward. -/
theorem entry_exchange (S : Stage n) (i k l : Fin n) (j : Fin (n + 1)) :
    (S.exchange i k).system.entry l j =
      if j < i.castSucc then S.system.entry l j
      else S.system.entry (Equiv.swap i k l) j := by
  have hlt : j < i.castSucc ↔ j.val < i.val := Iff.rfl
  simp only [exchange, Grid.entry_swapFrom, Equiv.swap_apply_def, hlt]
  split_ifs <;> rfl

/-- An exchange of rows that agree before its column is an exchange of whole rows. -/
theorem entry_exchange_of_agree {k : Fin n}
    (h : ∀ j, j < i.castSucc → S.system.entry i j = S.system.entry k j) (l : Fin n)
    (j : Fin (n + 1)) :
    (S.exchange i k).system.entry l j = S.system.entry (Equiv.swap i k l) j := by
  rw [entry_exchange]
  split
  · next hj =>
    rw [Equiv.swap_apply_def]
    split_ifs with hl hl
    · rw [hl, h j hj]
    · rw [hl, h j hj]
    · rfl
  · rfl

/-- An exchange at step `i`, in the column of the pivot. -/
theorem coefficient_exchange (S : Stage n) (i k l : Fin n) :
    (S.exchange i k).coefficient l i = S.coefficient (Equiv.swap i k l) i := by
  rw [coefficient, entry_exchange, if_neg (lt_irrefl _)]
  rfl

@[simp] theorem lower_exchange (S : Stage n) (i k : Fin n) :
    (S.exchange i k).lower = S.lower := rfl

@[simp] theorem swaps_exchange (S : Stage n) (i k : Fin n) :
    (S.exchange i k).swaps = S.swaps ++ [⟨i, k⟩] := rfl

/-- The record of another step is as before. -/
theorem filter_swaps_exchange (S : Stage n) (i k : Fin n) {t : Nat} (ht : t ≠ i) :
    (S.exchange i k).swaps.filter (·.step = t) = S.swaps.filter (·.step = t) := by
  rw [swaps_exchange, List.filter_append]
  simp [ht.symm]

/-- An exchange at step `i` moves no row above it, and none from below to above. -/
theorem min_swap {i k : Fin n} (hik : i < k) (l : Fin n) :
    min (Equiv.swap i k l).val i.val = min l.val i.val := by
  rw [Equiv.swap_apply_def]
  split_ifs <;> omega

/-- **The invariant of a scan**: what every exchange of an entry that exceeds the pivot
keeps, the scan keeps. -/
theorem scan_induction {P : Stage n → Prop}
    (exchange : ∀ S k, i < k → S.coefficient i i < S.coefficient k i → P S → P (S.exchange i k))
    (start : P S) : P (S.scan i) := by
  have hbelow : ∀ k ∈ rowsBelow i, i < k := fun k => mem_rowsBelow.mp
  rw [scan]
  -- of the rows to compare, only that they are below row `i` matters
  generalize rowsBelow i = rows at hbelow
  induction rows generalizing S with
  | nil => exact start
  | cons k rows ih =>
    rw [List.foldl_cons]
    refine ih ?_ fun l hl => hbelow l (List.mem_cons_of_mem k hl)
    rw [compare]
    split
    · next hlt => exact exchange S k (hbelow k List.mem_cons_self) hlt start
    · exact start

/-- A comparison keeps every entry that is at most the pivot so. -/
theorem coefficient_compare_le {S : Stage n} (k : Fin n) {l : Fin n}
    (h : l = k ∨ S.coefficient l i ≤ S.coefficient i i) :
    (compare i S k).coefficient l i ≤ (compare i S k).coefficient i i := by
  rw [compare]
  split
  · next hlt =>
    rw [coefficient_exchange, coefficient_exchange, Equiv.swap_apply_left, Scaled.le_iff_val]
    rw [Scaled.lt_iff_val] at hlt
    rw [Scaled.le_iff_val] at h
    rw [Equiv.swap_apply_def]
    split_ifs with hli hlk
    · exact le_rfl
    · exact hlt.le
    · rcases h with rfl | h
      · exact absurd rfl hlk
      · exact h.trans hlt.le
  · next hge =>
    rw [Scaled.lt_iff_val, not_lt] at hge
    rw [Scaled.le_iff_val] at h ⊢
    rcases h with rfl | h
    · exact hge
    · exact h

/-- **After the scan of step `i` the pivot is the largest entry** of its column from row `i` on. -/
theorem coefficient_scan_le (S : Stage n) {k : Fin n} (hk : i ≤ k) :
    (S.scan i).coefficient k i ≤ (S.scan i).coefficient i i := by
  have key : ∀ (rows : List (Fin n)) (S : Stage n),
      (k ∈ rows ∨ S.coefficient k i ≤ S.coefficient i i) →
      (rows.foldl (compare i) S).coefficient k i ≤ (rows.foldl (compare i) S).coefficient i i := by
    intro rows
    induction rows with
    | nil =>
      intro S h
      rcases h with h | h
      · cases h
      · exact h
    | cons l rows ih =>
      intro S h
      rw [List.foldl_cons]
      refine ih _ ?_
      rw [List.mem_cons, or_assoc, or_left_comm] at h
      rcases h with h | h
      · exact .inl h
      · exact .inr (coefficient_compare_le l h)
  refine key _ S ?_
  rcases hk.eq_or_lt with rfl | hlt
  · exact .inr (Scaled.le_iff_val.mpr le_rfl)
  · exact .inl (mem_rowsBelow.mpr hlt)

/-! ### Reductions -/

/-- **A reduction** of the rows of a list by row `i`: each of them has a multiplier,
entered in column `i`, and each of its entries from column `i` on is less a product of the
multiplier; all else is as before. -/
structure Reduced (R : Law) (i : Fin n) (pivot : Scaled) (rows : List (Fin n))
    (S S' : Stage n) : Prop where
  /-- The multiplier is a quotient by the pivot. -/
  factor : ∀ k ∈ rows, R .divide (S.coefficient k i) pivot (S'.lower.entry k i)
  /-- Every entry from column `i` on is less a product of the multiplier. -/
  entry : ∀ k ∈ rows, ∀ j, i.castSucc ≤ j → ∃ product,
    R .multiply (S'.lower.entry k i) (S.system.entry i j) product ∧
      R .subtract (S.system.entry k j) product (S'.system.entry k j)
  /-- No other entry changes. -/
  system_frame : ∀ k j, ¬(k ∈ rows ∧ i.castSucc ≤ j) →
    S'.system.entry k j = S.system.entry k j
  /-- No other multiplier changes. -/
  lower_frame : ∀ k j, ¬(k ∈ rows ∧ j = i) → S'.lower.entry k j = S.lower.entry k j
  /-- The record of exchanges is as before. -/
  swaps : S'.swaps = S.swaps
  /-- Nothing is reported. -/
  log : S'.log = S.log

/-- What a sweep along columns does to row `k`, the pivot row being another one. -/
theorem yields_reduceEntry {k : Fin n} {factor : Scaled} (hik : i ≠ k)
    {cols : List (Fin (n + 1))} (hcols : cols.Nodup)
    (h : Yields R (cols.foldlM (reduceEntry i k factor) S) S') :
    (∀ j ∈ cols, ∃ product, R .multiply factor (S.system.entry i j) product ∧
        R .subtract (S.system.entry k j) product (S'.system.entry k j)) ∧
      (∀ l j, ¬(l = k ∧ j ∈ cols) → S'.system.entry l j = S.system.entry l j) ∧
      S'.lower = S.lower ∧ S'.swaps = S.swaps ∧ S'.log = S.log := by
  induction cols generalizing S with
  | nil =>
    rw [List.foldlM_nil, yields_pure_iff] at h
    subst h
    simp
  | cons j cols ih =>
    obtain ⟨hj, hcols⟩ := List.nodup_cons.mp hcols
    simp only [List.foldlM_cons, reduceEntry, yields_bind_iff, yields_consult_iff,
      yields_pure_iff] at h
    obtain ⟨_, ⟨product, hp, difference, hd, rfl⟩, h⟩ := h
    obtain ⟨hin, hout, hl, hs, hg⟩ := ih hcols h
    refine ⟨?_, ?_, hl, hs, hg⟩
    · intro j' hj'
      rcases List.mem_cons.mp hj' with rfl | hj'
      · -- the entry just written is not written again
        refine ⟨product, hp, ?_⟩
        rw [hout k j' fun hc => hj hc.2, Grid.entry_setEntry, if_pos ⟨rfl, rfl⟩]
        exact hd
      · -- the write touches neither the later columns nor the pivot row
        have hne : ¬(k = k ∧ j = j') := fun hc => hj (hc.2 ▸ hj')
        have hne' : ¬(k = i ∧ j = j') := fun hc => hik hc.1.symm
        have := hin j' hj'
        rwa [Grid.entry_setEntry, Grid.entry_setEntry, if_neg hne, if_neg hne'] at this
    · intro l j' hlj
      rw [hout l j' fun hc => hlj ⟨hc.1, List.mem_cons_of_mem j hc.2⟩, Grid.entry_setEntry, if_neg]
      rintro ⟨rfl, rfl⟩
      exact hlj ⟨rfl, List.mem_cons_self⟩

/-- What the reduction of one row leaves behind. -/
theorem reduced_singleton {k : Fin n} {pivot : Scaled} (hik : i ≠ k)
    (h : Yields R (reduceRow i pivot S k) S') : Reduced R i pivot [k] S S' := by
  simp only [reduceRow, yields_bind_iff, yields_consult_iff] at h
  obtain ⟨factor, hf, h⟩ := h
  obtain ⟨hin, hout, hl, hs, hg⟩ := yields_reduceEntry hik (nodup_columnsFrom i) h
  have hentry : S'.lower.entry k i = factor := by
    rw [hl]
    simp [Grid.entry_setEntry]
  refine ⟨?_, ?_, ?_, ?_, hs, hg⟩
  · rintro k' hk'
    obtain rfl := List.mem_singleton.mp hk'
    rw [hentry]
    exact hf
  · rintro k' hk' j hj
    obtain rfl := List.mem_singleton.mp hk'
    rw [hentry]
    exact hin j (mem_columnsFrom.mpr hj)
  · intro k' j hkj
    refine hout k' j fun hc => hkj ⟨?_, mem_columnsFrom.mp hc.2⟩
    exact List.mem_singleton.mpr hc.1
  · intro k' j hkj
    rw [hl]
    refine (Grid.entry_setEntry _ _ _ _ _ _).trans (if_neg ?_)
    rintro ⟨rfl, rfl⟩
    exact hkj ⟨List.mem_singleton.mpr rfl, rfl⟩

/-- A reduction of one row followed by a reduction of others is a reduction of all of
them: no row is reduced twice, and the pivot row is not among them. -/
theorem Reduced.cons {k : Fin n} {pivot : Scaled} {rows : List (Fin n)} (hk : k ∉ rows)
    (hik : i ≠ k) (h : Reduced R i pivot [k] S T)
    (h' : Reduced R i pivot rows T S') : Reduced R i pivot (k :: rows) S S' := by
  have hrows : ∀ l ∈ rows, l ∉ [k] := fun l hl hc => hk (List.mem_singleton.mp hc ▸ hl)
  have hlower : S'.lower.entry k i = T.lower.entry k i :=
    h'.lower_frame k i fun hc => hk hc.1
  refine ⟨?_, ?_, ?_, ?_, h'.swaps.trans h.swaps, h'.log.trans h.log⟩
  · intro l hl
    rcases List.mem_cons.mp hl with rfl | hl
    · rw [hlower]
      exact h.factor l (List.mem_singleton.mpr rfl)
    · have := h'.factor l hl
      rwa [coefficient, h.system_frame l _ fun hc => hrows l hl hc.1] at this
  · intro l hl j hj
    rcases List.mem_cons.mp hl with rfl | hl
    · rw [hlower, h'.system_frame l j fun hc => hk hc.1]
      exact h.entry l (List.mem_singleton.mpr rfl) j hj
    · -- the first reduction has changed neither row `l` nor the pivot row
      have := h'.entry l hl j hj
      rwa [h.system_frame l j fun hc => hrows l hl hc.1,
        h.system_frame i j fun hc => hik (List.mem_singleton.mp hc.1)] at this
  · intro l j hlj
    rw [h'.system_frame l j fun hc => hlj ⟨List.mem_cons_of_mem k hc.1, hc.2⟩]
    refine h.system_frame l j fun hc => hlj ⟨?_, hc.2⟩
    rw [List.mem_singleton.mp hc.1]
    exact List.mem_cons_self
  · intro l j hlj
    rw [h'.lower_frame l j fun hc => hlj ⟨List.mem_cons_of_mem k hc.1, hc.2⟩]
    refine h.lower_frame l j fun hc => hlj ⟨?_, hc.2⟩
    rw [List.mem_singleton.mp hc.1]
    exact List.mem_cons_self

/-- What the reduction of the rows of a list leaves behind. -/
theorem reduced_of_yields_foldlM {pivot : Scaled} {rows : List (Fin n)} (hrows : rows.Nodup)
    (hi : i ∉ rows) (h : Yields R (rows.foldlM (reduceRow i pivot) S) S') :
    Reduced R i pivot rows S S' := by
  induction rows generalizing S with
  | nil =>
    rw [List.foldlM_nil, yields_pure_iff] at h
    subst h
    constructor <;> simp
  | cons k rows ih =>
    obtain ⟨hk, hrows⟩ := List.nodup_cons.mp hrows
    obtain ⟨hik, hi⟩ : i ≠ k ∧ i ∉ rows := by simpa using hi
    rw [List.foldlM_cons, yields_bind_iff] at h
    obtain ⟨T, hT, h⟩ := h
    exact (reduced_singleton hik hT).cons hk hik (ih hrows hi h)

/-- **The reduction of a step**: what it leaves behind. -/
theorem reduced_of_yields (h : Yields R (S.reduce i) S') :
    Reduced R i (S.coefficient i i) (rowsBelow i) S S' :=
  reduced_of_yields_foldlM (nodup_rowsBelow i) (by simp) h

/-- The pivot row and the rows above it stay. -/
theorem Reduced.entry_of_le {pivot : Scaled} (h : Reduced R i pivot (rowsBelow i) S S')
    {k : Fin n} (hk : k ≤ i) (j : Fin (n + 1)) : S'.system.entry k j = S.system.entry k j :=
  h.system_frame k j fun hc => absurd (mem_rowsBelow.mp hc.1) (not_lt.mpr hk)

/-- The columns before the pivot's stay. -/
theorem Reduced.entry_of_lt {pivot : Scaled} {rows : List (Fin n)}
    (h : Reduced R i pivot rows S S') (k : Fin n) {j : Fin (n + 1)} (hj : j < i.castSucc) :
    S'.system.entry k j = S.system.entry k j :=
  h.system_frame k j fun hc => absurd hc.2 (not_le.mpr hj)

/-- The multipliers of other columns stay. -/
theorem Reduced.lower_of_ne {pivot : Scaled} {rows : List (Fin n)}
    (h : Reduced R i pivot rows S S') (k : Fin n) {j : Fin n} (hj : j ≠ i) :
    S'.lower.entry k j = S.lower.entry k j :=
  h.lower_frame k j fun hc => hj hc.2

/-! ### The record of exchanges -/

/-- **A record in order**: every exchange on it was made at a step that has been reached,
with a row further down. -/
def Recorded (reached : Nat) (S : Stage n) : Prop :=
  ∀ s ∈ S.swaps, s.step ≤ reached ∧ s.step < s.row ∧ s.row < n

theorem recorded_start (one zero : Scaled) (a : Augmented n) : Recorded 0 (.start one zero a) := by
  simp [Recorded, start]

theorem Recorded.exchange (h : S.Recorded i) {k : Fin n} (hik : i < k) :
    (S.exchange i k).Recorded i := by
  intro s hs
  rcases List.mem_append.mp hs with hs | hs
  · exact h s hs
  · obtain rfl := List.mem_singleton.mp hs
    exact ⟨le_rfl, hik, k.isLt⟩

theorem Recorded.mono {t t' : Nat} (h : S.Recorded t) (htt' : t ≤ t') : S.Recorded t' :=
  fun s hs => ⟨(h s hs).1.trans htt', (h s hs).2⟩

/-- Nothing is recorded for a step that is not reached, or that there is not. -/
theorem Recorded.filter_eq_nil {t u : Nat} (h : S.Recorded t) (hu : t < u ∨ n ≤ u) :
    S.swaps.filter (·.step = u) = [] := by
  rw [List.filter_eq_nil_iff]
  intro s hs
  have hstep := h s hs
  rw [decide_eq_true_eq]
  omega

theorem Reduced.recorded {pivot : Scaled} {rows : List (Fin n)} {t : Nat}
    (hr : Reduced R i pivot rows S S') (h : S.Recorded t) : S'.Recorded t := by
  rw [Recorded, hr.swaps]
  exact h

end Stage

/-! ### Whole runs -/

section Runs

variable {n : Nat} {R : Law} {one zero : Scaled} {a : Augmented n}

/-- **The invariant of an elimination**, indexed by the number of finished steps: each
exchange keeps it, and each reduction takes it one step further. -/
theorem Plan.Yields.eliminate_induction {I : Nat → Stage n → Prop}
    (exchange : ∀ (i : Fin n) S k, i < k → S.coefficient i i < S.coefficient k i →
      I i.val S → I i.val (S.exchange i k))
    (reduce : ∀ (i : Fin n) S S', I i.val S →
      Stage.Reduced R i (S.coefficient i i) (rowsBelow i) S S' → I (i.val + 1) S')
    (start : I 0 (.start one zero a)) {S : Stage n} (h : Yields R (a.eliminate one zero) S) :
    I n S := by
  refine h.finRange_induction ?_ start
  intro i T T' hT hy
  exact reduce i _ _ (Stage.scan_induction (exchange i) hT) (Stage.reduced_of_yields hy)

namespace LinearSystem

/-- A square system with equations passes the check of the shape. -/
theorem augmented_ofAugmented (hn : 0 < n) (a : Augmented n) :
    (ofAugmented a).augmented = .ok a := by
  refine (if_neg hn.ne').trans ((dif_pos rfl).trans ((dif_pos a.rhs.size_toArray).trans ?_))
  have hm : (Grid.ofEntries fun i j => a.matrix.entry i (Fin.cast rfl j)) = a.matrix := by
    ext i j
    simp
  exact congrArg Except.ok ((congrArg (Augmented.join · a.rhs) hm).trans a.join_matrix_rhs)

/-- After the check, a procedure is the procedure on the augmented matrix. -/
theorem afterCheck_of_augmented {α : Type} {s : LinearSystem} {b : Augmented s.rows}
    (h : s.augmented = .ok b) (procedure : Augmented s.rows → Plan (Stage s.rows) α) :
    s.afterCheck procedure = (procedure b).mapHeld remains := by
  rw [afterCheck, h]

theorem backSubstitute_of_augmented {s : LinearSystem} {b : Augmented s.rows}
    (h : s.augmented = .ok b) : s.backSubstitute zero = b.backSubstitute ⟨s, []⟩ zero := by
  rw [backSubstitute, h]

/-- After the check, a procedure yields what it yields on the augmented matrix. -/
theorem yields_afterCheck_iff {α : Type} {procedure : Augmented n → Plan (Stage n) α} {r : α} :
    Yields R ((ofAugmented a).afterCheck procedure) r ↔ 0 < n ∧ Yields R (procedure a) r := by
  unfold afterCheck
  rcases Nat.eq_zero_or_pos n with rfl | hn
  · -- without equations the check stops the run
    have hstop : (ofAugmented a).augmented = .error .emptySystem := if_pos rfl
    split
    · next a' h => exact absurd (h.symm.trans hstop) (by simp)
    · simp
  · split
    · next a' h =>
      obtain rfl : a = a' := Except.ok.inj ((augmented_ofAugmented hn a).symm.trans h)
      exact yields_mapHeld_iff.trans (and_iff_right hn).symm
    · next cause h => exact absurd (h.symm.trans (augmented_ofAugmented hn a)) (by simp)

theorem yields_eliminate_iff {S : Stage n} :
    Yields R ((ofAugmented a).eliminate one zero) S ↔
      0 < n ∧ Yields R (a.eliminate one zero) S :=
  yields_afterCheck_iff

theorem yields_solve_iff {r : Stage n × Column n} :
    Yields R ((ofAugmented a).solve one zero) r ↔ 0 < n ∧ Yields R (a.solve one zero) r :=
  yields_afterCheck_iff

theorem yields_backSubstitute_iff {x : Column n} :
    Yields R ((ofAugmented a).backSubstitute zero) x ↔
      0 < n ∧ Yields R (a.backSubstitute (⟨ofAugmented a, []⟩ : Remains) zero) x := by
  rcases Nat.eq_zero_or_pos n with rfl | hn
  · exact iff_of_false not_yields_stop fun h => h.1.ne rfl
  · rw [backSubstitute_of_augmented (augmented_ofAugmented hn a)]
    exact (and_iff_right hn).symm

end LinearSystem

end Runs

end ScaledGauss

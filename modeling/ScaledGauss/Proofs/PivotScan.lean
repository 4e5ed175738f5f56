import Mathlib.Data.List.Induction
import Mathlib.Data.List.Sort
import Mathlib.GroupTheory.Perm.List
import Mathlib.Order.Bounds.Basic
import ScaledGauss.Proofs.Rounding
import ScaledGauss.Proofs.Throughout

/-!
# The scan in closed form

The scan of a step compares the rows below with the diagonal row, and every entry that exceeds
the pivot found so far takes its place. Since the comparison is with the row that has just been
exchanged, the outcome is not an exchange of two rows but a **rotation**: along the rows that set
a record – whose entry exceeds all those above it, from the diagonal down – each row moves to the
place of the next record, and the last of them comes to the diagonal
(`ScaledGauss.Stage.scanned_scan`).

The proof goes along the rows in order. What has been scanned is an initial part of the rows
below; the invariant (`ScaledGauss.Stage.Climbed`) is that the records so far have been rotated
and that the last of them is a largest entry so far. A rotation is the cyclic permutation of a
list (`List.formPerm`), and one more record makes it longer by one exchange
(`ScaledGauss.formPerm_concat`), which is the exchange that the scan makes.

What the scan leaves in the rows down to the diagonal is final: no later action writes there
(`ScaledGauss.Stage.Settled`), so every later state of the run has these rows, also the one that
a failed run leaves behind.

## Main definitions

– `ScaledGauss.Stage.records`: the rows that set a record, from the top;
– `ScaledGauss.Stage.Scanned`: a state and what the scan makes of it.

## Main results

– `ScaledGauss.Stage.Climbed.compare`, `ScaledGauss.Stage.scanned_scan`: one comparison, and the
  whole scan;
– `ScaledGauss.Augmented.scan_rotates_records`: the scans of a run.
-/

namespace ScaledGauss

open Plan

variable {n : Nat}

/-- **A cycle that goes on to one more element**: the new one is put between the last and the
first. -/
theorem formPerm_concat {α : Type} [DecidableEq α] {x y : α} {l : List α} (hy : y ∉ x :: l) :
    (x :: l ++ [y]).formPerm = Equiv.swap x y * (x :: l).formPerm := by
  have hne : x :: l ≠ [] := List.cons_ne_nil x l
  have hlast : (x :: l).dropLast ++ [(x :: l).getLast hne] = x :: l :=
    List.dropLast_append_getLast hne
  calc (x :: l ++ [y]).formPerm
      = ((x :: l).dropLast ++ [(x :: l).getLast hne, y]).formPerm := by
        conv_lhs => rw [← hlast]
        rw [List.append_assoc]
        rfl
    _ = (x :: l).formPerm * Equiv.swap ((x :: l).getLast hne) y := by
        rw [List.formPerm_append_pair, hlast]
    _ = Equiv.swap x y * (x :: l).formPerm := by
        rw [Equiv.mul_swap_eq_swap_mul, List.formPerm_apply_getLast,
          List.formPerm_apply_of_notMem hy]

namespace Stage

variable {i k : Fin n} {S T : Stage n} {done : List (Fin n)}

/-! ### Records -/

/-- **Row `k` sets a record** in the column of step `i`: its entry exceeds all those above it,
from row `i` down. -/
def SetsRecord (S : Stage n) (i k : Fin n) : Prop :=
  i ≤ k ∧ ∀ l, i ≤ l → l < k → S.coefficient l i < S.coefficient k i

instance (S : Stage n) (i k : Fin n) : Decidable (S.SetsRecord i k) :=
  inferInstanceAs (Decidable (_ ∧ _))

/-- **The records of step `i`**, from the top. -/
def records (S : Stage n) (i : Fin n) : List (Fin n) :=
  (List.finRange n).filter fun k => S.SetsRecord i k

/-- The records of step `i` among the rows scanned so far: the diagonal row is the first. -/
def recordsAmong (S : Stage n) (i : Fin n) (done : List (Fin n)) : List (Fin n) :=
  i :: done.filter fun k => S.SetsRecord i k

/-- The last record of step `i` among the rows scanned so far. -/
def lead (S : Stage n) (i : Fin n) (done : List (Fin n)) : Fin n :=
  (S.recordsAmong i done).getLast (List.cons_ne_nil _ _)

/-- **The values of a column** from the diagonal down. -/
def columnFrom (S : Stage n) (i : Fin n) : Set Int :=
  {v | ∃ k, i ≤ k ∧ (S.coefficient k i).val = v}

@[simp] theorem mem_records : k ∈ S.records i ↔ S.SetsRecord i k := by
  simp [records]

theorem pairwise_records (S : Stage n) (i : Fin n) : (S.records i).Pairwise (· < ·) :=
  (List.pairwise_lt_finRange n).filter _

theorem setsRecord_self (S : Stage n) (i : Fin n) : S.SetsRecord i i :=
  ⟨le_rfl, fun _ hl hlt => absurd hl (not_le.mpr hlt)⟩

/-- The records of a step are those among all rows below. -/
theorem records_eq (S : Stage n) (i : Fin n) : S.records i = S.recordsAmong i (rowsBelow i) := by
  have hsorted : (S.recordsAmong i (rowsBelow i)).Pairwise (· < ·) := by
    refine List.pairwise_cons.mpr ⟨fun k hk => ?_, ?_⟩
    · exact mem_rowsBelow.mp (List.mem_of_mem_filter hk)
    · exact ((List.pairwise_lt_finRange n).filter _).filter _
  refine (S.pairwise_records i).eq_of_mem_iff hsorted fun k => ?_
  rw [mem_records, recordsAmong, List.mem_cons, List.mem_filter, mem_rowsBelow,
    decide_eq_true_eq]
  constructor
  · intro h
    rcases h.1.eq_or_lt with rfl | hlt
    · exact .inl rfl
    · exact .inr ⟨hlt, h⟩
  · rintro (rfl | ⟨-, h⟩)
    · exact S.setsRecord_self k
    · exact h

/-- One more row scanned is one more record or none. -/
theorem recordsAmong_concat (S : Stage n) (i : Fin n) (done : List (Fin n)) (k : Fin n) :
    S.recordsAmong i (done ++ [k]) =
      if S.SetsRecord i k then S.recordsAmong i done ++ [k] else S.recordsAmong i done := by
  rw [recordsAmong, recordsAmong, List.filter_append]
  by_cases hk : S.SetsRecord i k
  · simp [hk]
  · simp [hk]

theorem lead_concat (S : Stage n) (i : Fin n) (done : List (Fin n)) (k : Fin n) :
    S.lead i (done ++ [k]) = if S.SetsRecord i k then k else S.lead i done := by
  by_cases hk : S.SetsRecord i k
  · simp [lead, recordsAmong_concat, hk]
  · simp [lead, recordsAmong_concat, hk]

/-- **The rows scanned before row `k`** are those between row `i` and it. -/
theorem mem_of_concat_prefix (h : done ++ [k] <+: rowsBelow i) :
    i < k ∧ ∀ l, l ∈ done ↔ i < l ∧ l < k := by
  obtain ⟨rest, hrest⟩ := h
  rw [List.append_assoc] at hrest
  have hsorted : (done ++ ([k] ++ rest)).Pairwise (· < ·) := by
    rw [hrest]
    exact (List.pairwise_lt_finRange n).filter _
  obtain ⟨-, hafter, hbefore⟩ := List.pairwise_append.mp hsorted
  have hmem : ∀ l, l ∈ done ++ ([k] ++ rest) ↔ i < l := fun l => by rw [hrest, mem_rowsBelow]
  refine ⟨(hmem k).mp (by simp), fun l => ⟨fun hl => ?_, fun hl => ?_⟩⟩
  · exact ⟨(hmem l).mp (List.mem_append_left _ hl), hbefore l hl k (by simp)⟩
  · rcases List.mem_append.mp ((hmem l).mpr hl.1) with hdone | hlater
    · exact hdone
    · rcases List.mem_append.mp hlater with heq | hlater
      · exact absurd (List.mem_singleton.mp heq) hl.2.ne
      · exact absurd hl.2 (List.rel_of_pairwise_cons hafter hlater).not_gt

/-! ### The scan under way -/

/-- **A scan under way**: the records among the rows scanned so far have been rotated and
recorded, and the last of them is a largest entry so far. -/
structure Climbed (S : Stage n) (i : Fin n) (done : List (Fin n)) (T : Stage n) : Prop where
  /-- From column `i` on each row is the one before it among the records. -/
  entry : ∀ k j, T.system.entry k j = if j < i.castSucc then S.system.entry k j
    else S.system.entry ((S.recordsAmong i done).formPerm⁻¹ k) j
  /-- Each record but the first has been exchanged. -/
  swaps : T.swaps = S.swaps ++ (S.recordsAmong i done).tail.map fun k => ⟨i, k⟩
  /-- No multiplier has changed. -/
  lower : T.lower = S.lower
  /-- The last record is a largest entry. -/
  greatest : ∀ l, l = i ∨ l ∈ done → (S.coefficient l i).val ≤ (S.coefficient (S.lead i done) i).val

theorem climbed_nil (S : Stage n) (i : Fin n) : S.Climbed i [] S where
  entry k j := by simp [recordsAmong]
  swaps := by simp [recordsAmong]
  lower := rfl
  greatest := by
    rintro l (rfl | hl)
    · exact le_rfl
    · cases hl

namespace Climbed

/-- The diagonal row is so far the last record. -/
theorem entry_pivot (h : S.Climbed i done T) {j : Fin (n + 1)} (hj : i.castSucc ≤ j) :
    T.system.entry i j = S.system.entry (S.lead i done) j := by
  have hlast : (S.recordsAmong i done).formPerm⁻¹ i = S.lead i done :=
    Equiv.Perm.inv_eq_iff_eq.mpr (List.formPerm_apply_getLast _ _).symm
  rw [h.entry, if_neg (not_lt.mpr hj), hlast]

/-- The pivot so far is the entry of the last record. -/
theorem coefficient_pivot (h : S.Climbed i done T) :
    T.coefficient i i = S.coefficient (S.lead i done) i :=
  h.entry_pivot le_rfl

/-- A row that is no record so far is as it was. -/
theorem entry_of_notMem (h : S.Climbed i done T) (hk : k ∉ S.recordsAmong i done)
    (j : Fin (n + 1)) : T.system.entry k j = S.system.entry k j := by
  have hfix : (S.recordsAmong i done).formPerm⁻¹ k = k :=
    Equiv.Perm.inv_eq_iff_eq.mpr (List.formPerm_apply_of_notMem hk).symm
  rw [h.entry, hfix, ite_self]

/-- **A row sets a record** exactly when it exceeds the pivot so far. -/
theorem setsRecord_iff (h : S.Climbed i done T) (hk : done ++ [k] <+: rowsBelow i) :
    S.SetsRecord i k ↔ T.coefficient i i < S.coefficient k i := by
  obtain ⟨hik, hdone⟩ := mem_of_concat_prefix hk
  rw [h.coefficient_pivot]
  constructor
  · intro hrec
    have hlead : S.lead i done ∈ S.recordsAmong i done := List.getLast_mem _
    rcases List.mem_cons.mp hlead with heq | hmem
    · rw [heq]
      exact hrec.2 i le_rfl hik
    · obtain ⟨hlow, hhigh⟩ := (hdone _).mp (List.mem_of_mem_filter hmem)
      exact hrec.2 _ hlow.le hhigh
  · intro hlt
    refine ⟨hik.le, fun l hil hlk => ?_⟩
    have hscanned : l = i ∨ l ∈ done := by
      rcases hil.eq_or_lt with heq | hlt
      · exact .inl heq.symm
      · exact .inr ((hdone l).mpr ⟨hlt, hlk⟩)
    rw [Scaled.lt_iff_val] at hlt ⊢
    exact (h.greatest l hscanned).trans_lt hlt

/-- **One comparison** takes the scan one row further. -/
theorem compare (h : S.Climbed i done T) (hk : done ++ [k] <+: rowsBelow i) :
    S.Climbed i (done ++ [k]) (compare i T k) := by
  obtain ⟨hik, hdone⟩ := mem_of_concat_prefix hk
  have hnew : k ∉ S.recordsAmong i done := by
    rintro (_ | ⟨_, hmem⟩)
    · exact lt_irrefl _ hik
    · exact lt_irrefl _ ((hdone k).mp (List.mem_of_mem_filter hmem)).2
  have hrow : T.coefficient k i = S.coefficient k i := h.entry_of_notMem hnew _
  have hrec := h.setsRecord_iff hk
  rw [Stage.compare, hrow]
  by_cases hlt : T.coefficient i i < S.coefficient k i
  · -- a record: the cycle goes on to row `k`, by the exchange that is made
    have hset := hrec.mpr hlt
    have hcycle : (S.recordsAmong i done ++ [k]).formPerm⁻¹ =
        (S.recordsAmong i done).formPerm⁻¹ * Equiv.swap i k := by
      rw [recordsAmong, formPerm_concat hnew, mul_inv_rev, Equiv.swap_inv]
    rw [if_pos hlt]
    refine ⟨fun l j => ?_, ?_, h.lower, fun l hl => ?_⟩
    · rw [recordsAmong_concat, if_pos hset, hcycle, entry_exchange, h.entry, h.entry]
      split_ifs <;> rfl
    · rw [recordsAmong_concat, if_pos hset, swaps_exchange, h.swaps, recordsAmong, List.cons_append,
        List.tail_cons, List.tail_cons, List.map_append, List.append_assoc]
      rfl
    · rw [lead_concat, if_pos hset]
      rw [List.mem_append, ← or_assoc] at hl
      rcases hl with hl | hl
      · rw [h.coefficient_pivot, Scaled.lt_iff_val] at hlt
        exact (h.greatest l hl).trans hlt.le
      · rw [List.mem_singleton.mp hl]
  · -- no record: nothing changes
    have hset := mt hrec.mp hlt
    rw [if_neg hlt]
    refine ⟨fun l j => ?_, ?_, h.lower, fun l hl => ?_⟩
    · rw [recordsAmong_concat, if_neg hset, h.entry]
    · rw [recordsAmong_concat, if_neg hset, h.swaps]
    · rw [lead_concat, if_neg hset]
      rw [List.mem_append, ← or_assoc] at hl
      rcases hl with hl | hl
      · exact h.greatest l hl
      · rw [h.coefficient_pivot, Scaled.lt_iff_val, not_lt] at hlt
        rw [List.mem_singleton.mp hl]
        exact hlt

end Climbed

/-- **The scan of a step**, as far as it has come. -/
theorem climbed_foldl (S : Stage n) (i : Fin n) (hdone : done <+: rowsBelow i) :
    S.Climbed i done (done.foldl (compare i) S) := by
  induction done using List.reverseRecOn with
  | nil => exact S.climbed_nil i
  | append_singleton done k ih =>
    rw [List.foldl_append]
    exact (ih ((List.prefix_append done [k]).trans hdone)).compare hdone

/-! ### The scan as a whole -/

/-- **A state and what the scan of step `i` makes of it.** The rows that set a record are
rotated from column `i` on, the right-hand side included, and nothing else changes. -/
structure Scanned (i : Fin n) (S T : Stage n) : Prop where
  /-- The diagonal row is the first record. -/
  first : (S.records i).head? = some i
  /-- The records go down. -/
  ascending : (S.records i).Pairwise (· < ·)
  /-- Every further record has been exchanged with the diagonal row, in order. -/
  swaps : T.swaps = S.swaps ++ (S.records i).tail.map fun p => ⟨i, p⟩
  /-- The diagonal row is the last record. -/
  pivot_row : ∀ p, (S.records i).getLast? = some p →
    ∀ j, i.castSucc ≤ j → T.system.entry i j = S.system.entry p j
  /-- Every further record has given its place to the one before it. -/
  next_row : ∀ t p q, (S.records i)[t]? = some p → (S.records i)[t + 1]? = some q →
    ∀ j, i.castSucc ≤ j → T.system.entry q j = S.system.entry p j
  /-- A row that sets no record stays. -/
  other_row : ∀ k, ¬S.SetsRecord i k → ∀ j, T.system.entry k j = S.system.entry k j
  /-- The rows above the diagonal row stay. -/
  row_above : ∀ k, k < i → ∀ j, T.system.entry k j = S.system.entry k j
  /-- The columns before the pivot's stay. -/
  column_before : ∀ k j, j < i.castSucc → T.system.entry k j = S.system.entry k j
  /-- The pivot is the greatest value of its column, from the diagonal down. -/
  greatest : IsGreatest (S.columnFrom i) (T.coefficient i i).val
  /-- Of the rows with that value the first has become the pivot row. -/
  earliest : ∀ p, (S.records i).getLast? = some p →
    ∀ k, i ≤ k → S.coefficient k i = T.coefficient i i → p ≤ k
  /-- No multiplier changes. -/
  lower : T.lower = S.lower

/-- **The scan rotates the records.** -/
theorem scanned_scan (S : Stage n) (i : Fin n) : S.Scanned i (S.scan i) := by
  have h : S.Climbed i (rowsBelow i) (S.scan i) := S.climbed_foldl i List.prefix_rfl
  have hall := S.records_eq i
  have hlead : ∀ p, (S.records i).getLast? = some p ↔ p = S.lead i (rowsBelow i) := by
    intro p
    rw [hall, recordsAmong, List.getLast?_eq_some_getLast (List.cons_ne_nil _ _), Option.some_inj]
    exact eq_comm
  have hrecord : S.SetsRecord i (S.lead i (rowsBelow i)) := by
    rw [← mem_records, hall]
    exact List.getLast_mem _
  have hpivot := h.coefficient_pivot
  have hother : ∀ k, ¬S.SetsRecord i k → ∀ j, (S.scan i).system.entry k j = S.system.entry k j := by
    intro k hk
    refine h.entry_of_notMem ?_
    rwa [← hall, mem_records]
  refine
    { first := ?first
      ascending := S.pairwise_records i
      swaps := hall ▸ h.swaps
      pivot_row := fun p hp j hj => (hlead p).mp hp ▸ h.entry_pivot hj
      next_row := ?next_row
      other_row := hother
      row_above := fun k hk => hother k fun hc => absurd hc.1 (not_le.mpr hk)
      column_before := fun k j hj => (h.entry k j).trans (if_pos hj)
      greatest := ⟨⟨_, hrecord.1, by rw [hpivot]⟩, ?bound⟩
      earliest := ?earliest
      lower := h.lower }
  case first =>
    rw [hall]
    rfl
  case next_row =>
    intro t p q hp hq j hj
    obtain ⟨ht, rfl⟩ := List.getElem?_eq_some_iff.mp hp
    obtain ⟨hq', rfl⟩ := List.getElem?_eq_some_iff.mp hq
    have hnext := List.formPerm_apply_lt_getElem _ (S.pairwise_records i).nodup t hq'
    rw [h.entry, if_neg (not_lt.mpr hj), ← hall, Equiv.Perm.inv_eq_iff_eq.mpr hnext.symm]
  case bound =>
    rintro v ⟨k, hk, rfl⟩
    rw [hpivot]
    refine h.greatest k ?_
    rcases hk.eq_or_lt with heq | hlt
    · exact .inl heq.symm
    · exact .inr (mem_rowsBelow.mpr hlt)
  case earliest =>
    intro p hp k hk heq
    obtain rfl := (hlead p).mp hp
    by_contra hlt
    have hless := hrecord.2 k hk (not_le.mp hlt)
    rw [heq, hpivot, Scaled.lt_iff_val] at hless
    exact lt_irrefl _ hless

/-! ### What is final -/

/-- **What step `i` has settled**: the rows down to the diagonal row, with their right-hand
sides, and the exchanges of the step. -/
structure Settled (i : Fin n) (S T : Stage n) : Prop where
  /-- The rows down to the diagonal row are as they were. -/
  entry : ∀ k, k ≤ i → ∀ j, T.system.entry k j = S.system.entry k j
  /-- No exchange is added to those of the step. -/
  swaps : T.swaps.filter (·.step = i.val) = S.swaps.filter (·.step = i.val)

/-- The writes of a step change nothing that it or an earlier one has settled. -/
theorem writes_settled {i' : Fin n} (hi : i ≤ i') : Writes i' (S.Settled i) where
  factor _ _ _ _ h := ⟨h.entry, h.swaps⟩
  entry T k j d hk _ h := by
    refine ⟨fun l hl j' => ?_, h.swaps⟩
    rw [Grid.entry_setEntry, if_neg, h.entry l hl j']
    rintro ⟨rfl, -⟩
    exact absurd (hl.trans hi) (not_le.mpr hk)

/-- Nor do the exchanges of a later step. -/
theorem Settled.exchange {i' : Fin n} (h : S.Settled i T) (hi : i < i') (hk : i' < k) :
    S.Settled i (T.exchange i' k) := by
  refine ⟨fun l hl j => ?_, ?_⟩
  · have hfix : Equiv.swap i' k l = l :=
      Equiv.swap_apply_of_ne_of_ne (hl.trans_lt hi).ne ((hl.trans_lt hi).trans hk).ne
    rw [entry_exchange, hfix, ite_self, h.entry l hl]
  · rw [filter_swaps_exchange _ _ _ (Fin.val_ne_of_ne hi.ne), h.swaps]

/-- **What a step has settled stays**, throughout the rest of the step and all later steps. -/
theorem throughout_settled (S : Stage n) (i : Fin n) :
    (S.reduce i >>= ((List.finRange n).drop (i.val + 1)).foldlM step).Throughout
      (S.Settled i) (S.Settled i) := by
  have hlater : ∀ i' ∈ (List.finRange n).drop (i.val + 1), i < i' := by
    intro i' hi'
    obtain ⟨t, ht, rfl⟩ := List.mem_iff_getElem.mp hi'
    rw [List.getElem_drop, List.getElem_finRange, Fin.lt_def]
    simp only [Fin.val_cast]
    omega
  refine ((writes_settled le_rfl).throughout_reduce ⟨fun _ _ _ => rfl, rfl⟩).bind fun T hT => ?_
  refine Throughout.foldlM (fun U i' hi' hU => ?_) hT
  have hii' := hlater i' hi'
  exact (writes_settled hii'.le).throughout_step (fun _ _ hk _ h => h.exchange hii' hk) hU

/-- **Before step `i` no exchange of that step is on record.** -/
theorem filter_swaps_of_first {answers : Nat → Op → Scaled → Scaled → Except Error Scaled}
    {one zero : Scaled} {a : Augmented n}
    (h : ((a.eliminateFirst one zero i).observe answers 0).outcome = .ok S) :
    S.swaps.filter (·.step = i.val) = [] := by
  have hfirst : (a.eliminateFirst one zero i).Throughout
      (fun T => ∀ s ∈ T.swaps, s.step < i.val) (fun T => ∀ s ∈ T.swaps, s.step < i.val) := by
    refine Throughout.foldlM (fun T i' hi' hT => ?_) nofun
    have hlt : i' < i := by
      obtain ⟨t, ht, rfl⟩ := List.mem_take_iff_getElem.mp hi'
      rw [List.getElem_finRange, Fin.lt_def]
      simp only [Fin.val_cast]
      omega
    refine Writes.throughout_step ⟨fun _ _ _ _ h => h, fun _ _ _ _ _ _ h => h⟩ ?_ hT
    intro U k _ _ hU s hs
    rcases List.mem_append.mp hs with hs | hs
    · exact hU s hs
    · rw [List.mem_singleton.mp hs]
      exact hlt
  have hswaps := (hfirst.of_outcome 0).1 S h
  rw [List.filter_eq_nil_iff]
  intro s hs
  rw [decide_eq_true_eq]
  exact (hswaps s hs).ne

/-- **A reduction begins by dividing by the pivot**, if there is a row to reduce. -/
theorem reduce_eq_call (S : Stage n) (hi : i.val + 1 < n) :
    ∃ left next, S.reduce i = .call S .divide left (S.coefficient i i) next := by
  have hnext : (⟨i.val + 1, hi⟩ : Fin n) ∈ rowsBelow i := mem_rowsBelow.mpr (Nat.lt_succ_self i.val)
  obtain ⟨k, rows, hrows⟩ := List.exists_cons_of_ne_nil (List.ne_nil_of_mem hnext)
  rw [reduce, hrows]
  exact ⟨S.coefficient k i, _, rfl⟩

end Stage

/-! ### The scans of a run -/

/-- **The scans of a run rotate the records.** Take any answers and any system, and a step `i`
that the elimination reaches, in the state `S`. The scan then makes of `S` what it should: along
the rows that set a record in column `i` each row moves to the place of the next, the last one
becomes the pivot row, and nothing else changes. If there is a row below to reduce, the result
of the scan is the state that the run holds at its next call. In every later state of the run –
held at a later call, at the end, or left behind by a failure – the exchanges recorded for
step `i` are the records but the first, and the rows down to the diagonal row are those that
the scan has left, with their right-hand sides. -/
theorem Augmented.scan_rotates_records
    (answers : Nat → Op → Scaled → Scaled → Except Error Scaled) (one zero : Scaled)
    (a : Augmented n) (i : Fin n) (S : Stage n)
    (reached : ((a.eliminateFirst one zero i).observe answers 0).outcome = .ok S) :
    S.Scanned i (S.scan i) ∧
    (i.val + 1 < n → ∃ call, ((a.eliminate one zero).observe answers 0).seen[
      ((a.eliminateFirst one zero i).observe answers 0).seen.length]? = some (S.scan i, call)) ∧
    ∀ T, ((a.eliminate one zero).observe answers 0).Shows
        ((a.eliminateFirst one zero i).observe answers 0).seen.length T →
      T.swaps.filter (·.step = i.val) = (S.records i).tail.map (fun p => ⟨i, p⟩) ∧
      ∀ k, k ≤ i → ∀ j, T.system.entry k j = (S.scan i).system.entry k j := by
  have hscan := S.scanned_scan i
  refine ⟨hscan, fun hi => ?_, fun T hT => ?_⟩
  · obtain ⟨left, next, hcall⟩ := (S.scan i).reduce_eq_call hi
    rw [a.eliminate_eq_bind one zero i, observe_bind, Observation.andThen, reached]
    simp only [List.getElem?_append_right le_rfl, Nat.sub_self, Stage.step, hcall]
    exact exists_seen_call
  · rw [a.eliminate_eq_bind one zero i] at hT
    have hrest := hT.of_bind reached
    have hsettled := ((S.scan i).throughout_settled i).of_shows hrest
    refine ⟨?_, hsettled.entry⟩
    rw [hsettled.swaps, hscan.swaps, List.filter_append, Stage.filter_swaps_of_first reached,
      List.nil_append, List.filter_eq_self]
    intro s hs
    obtain ⟨p, -, rfl⟩ := List.mem_map.mp hs
    exact decide_eq_true rfl

/-- A system whose second column has a negative entry and a tie, and whose elimination fails at
the third step. -/
def tiedSystem : Augmented 5 := .join
  #v[#v[⟨1⟩, ⟨4⟩, ⟨0⟩, ⟨0⟩, ⟨0⟩], #v[⟨0⟩, ⟨-5⟩, ⟨0⟩, ⟨0⟩, ⟨8⟩], #v[⟨0⟩, ⟨2⟩, ⟨0⟩, ⟨1⟩, ⟨0⟩],
    #v[⟨0⟩, ⟨2⟩, ⟨0⟩, ⟨6⟩, ⟨0⟩], #v[⟨0⟩, ⟨3⟩, ⟨0⟩, ⟨0⟩, ⟨9⟩]] #v[⟨7⟩, ⟨1⟩, ⟨2⟩, ⟨3⟩, ⟨4⟩]

theorem Augmented.scan_rotates_records_tied :
    ∃ S stopped, ((tiedSystem.eliminateFirst Format.integer.one .zero (1 : Fin 5)).observe
        (fun _ => Format.integer.arithmetic.apply) 0).outcome = .ok S ∧
      ((tiedSystem.eliminate Format.integer.one .zero).observe
        (fun _ => Format.integer.arithmetic.apply) 0).outcome = .error stopped ∧
      S.records 1 = [1, 2, 4] ∧
      stopped.held.swaps.filter (·.step = (1 : Fin 5).val) = [⟨1, 2⟩, ⟨1, 4⟩] ∧
      (∀ j, (1 : Fin 5).castSucc ≤ j → stopped.held.system.entry 1 j = S.system.entry 4 j) ∧
      ∀ j, (1 : Fin 5).castSucc ≤ j → (S.scan 1).system.entry 4 j = S.system.entry 2 j := by
  have hreached : (((tiedSystem.eliminateFirst Format.integer.one .zero (1 : Fin 5)).observe
      (fun _ => Format.integer.arithmetic.apply) 0).outcome.toOption.map fun S => S.records 1) =
        some [1, 2, 4] := by
    decide +kernel
  have hfails : ((tiedSystem.eliminate Format.integer.one .zero).observe
      (fun _ => Format.integer.arithmetic.apply) 0).outcome.toOption.map Stage.swaps = none := by
    decide +kernel
  obtain ⟨S, hS, hrecords⟩ := exists_ok_of_view hreached
  cases hrun : ((tiedSystem.eliminate Format.integer.one .zero).observe
      (fun _ => Format.integer.arithmetic.apply) 0).outcome with
  | ok T =>
    rw [hrun] at hfails
    cases hfails
  | error stopped =>
    obtain ⟨hscan, -, hlater⟩ := scan_rotates_records (fun _ => Format.integer.arithmetic.apply)
      Format.integer.one .zero tiedSystem 1 S hS
    obtain ⟨hswaps, hrows⟩ := hlater stopped.held (.failed hrun)
    rw [hrecords] at hswaps
    refine ⟨S, stopped, hS, rfl, hrecords, hswaps, fun j hj => ?_, fun j hj => ?_⟩
    · rw [hrows 1 le_rfl j]
      exact hscan.pivot_row 4 (by rw [hrecords]; rfl) j hj
    · exact hscan.next_row 1 2 4 (by rw [hrecords]; rfl) (by rw [hrecords]; rfl) j hj

end ScaledGauss

import ScaledGauss.Proofs.Elimination

/-!
# Two eliminations side by side

Some properties of an elimination are about two runs at once: the same matrix with another
right-hand side, the same equations in another order. Such runs go through their steps
together, but not through the same values, so what is compared is the state before each
step (`ScaledGauss.Augmented.eliminateFirst`). This file collects what the comparisons
share.

– **When a reduction happens**: exactly when every row below the pivot can be reduced on its
  own (`ScaledGauss.Stage.exists_yields_reduce_iff`). A row is reduced by answers about
  itself and the pivot row, so nothing else about the state matters.
– **What a reduction computes**: rows that agree, in the two runs, with pivot rows that
  agree are reduced to rows that agree (`ScaledGauss.Stage.Reduced.factor_congr`,
  `ScaledGauss.Stage.Reduced.entry_congr`).
-/

namespace ScaledGauss

open Plan

/-! ### Runs over an arithmetic -/

section Arithmetic

variable {n : Nat} {A : Arithmetic}

/-- An arithmetic has at most one answer. -/
theorem Arithmetic.Answers.unique {op : Op} {left right r r' : Scaled}
    (h : A.Answers op left right r) (h' : A.Answers op left right r') : r = r' :=
  Except.ok.inj (h.symm.trans h')

/-- A plan has at most one result over an arithmetic. -/
theorem Plan.Yields.unique {σ α : Type} {p : Plan σ α} {r r' : α} (h : Yields A.Answers p r)
    (h' : Yields A.Answers p r') : r = r' :=
  Except.ok.inj ((eval_eq_ok_iff.mpr h).symm.trans (eval_eq_ok_iff.mpr h'))

/-- **The elimination of a system** over an arithmetic, after the check of the shape. -/
def Arithmetic.eliminate (A : Arithmetic) (a : Augmented n) :
    Except (Stopped Remains) (Stage n) :=
  ((LinearSystem.ofAugmented a).eliminate A.one A.zero).eval A

theorem Arithmetic.eliminate_eq_ok_iff {a : Augmented n} {S : Stage n} :
    A.eliminate a = .ok S ↔ 0 < n ∧ Yields A.Answers (a.eliminate A.one A.zero) S :=
  eval_eq_ok_iff.trans LinearSystem.yields_eliminate_iff

end Arithmetic

/-! ### The first steps -/

section FirstSteps

variable {n : Nat} {R : Law} {one zero : Scaled} {a : Augmented n}

/-- **The first steps of an elimination**, as many as given. -/
def Augmented.eliminateFirst (one zero : Scaled) (count : Nat) (a : Augmented n) :
    Plan (Stage n) (Stage n) :=
  ((List.finRange n).take count).foldlM Stage.step (.start one zero a)

namespace Augmented

theorem yields_eliminateFirst_zero_iff {S : Stage n} :
    Yields R (a.eliminateFirst one zero 0) S ↔ S = .start one zero a := by
  rw [eliminateFirst, List.take_zero, List.foldlM_nil, yields_pure_iff]

/-- One more step. -/
theorem yields_eliminateFirst_succ_iff {i : Fin n} {S' : Stage n} :
    Yields R (a.eliminateFirst one zero (i.val + 1)) S' ↔
      ∃ S, Yields R (a.eliminateFirst one zero i) S ∧ Yields R (S.step i) S' := by
  rw [eliminateFirst, take_finRange_succ, List.foldlM_append, yields_bind_iff]
  simp [eliminateFirst]

theorem eliminateFirst_all : a.eliminateFirst one zero n = a.eliminate one zero := by
  rw [eliminateFirst, List.take_of_length_le (by simp), eliminate]

end Augmented

/-- **The invariant of an elimination, step by step**, with the steps done so far at hand. -/
theorem Plan.Yields.step_induction {I : Nat → Stage n → Prop} (start : I 0 (.start one zero a))
    (step : ∀ (i : Fin n) S S', Yields R (a.eliminateFirst one zero i) S → I i S →
      Yields R (S.step i) S' → I (i.val + 1) S')
    {S : Stage n} (h : Yields R (a.eliminate one zero) S) : I n S := by
  refine (h.finRange_induction (I := fun t S =>
    Yields R (a.eliminateFirst one zero t) S ∧ I t S) ?_ ?_).2
  · rintro i S S' ⟨hreached, hI⟩ hstep
    exact ⟨Augmented.yields_eliminateFirst_succ_iff.mpr ⟨S, hreached, hstep⟩,
      step i S S' hreached hI hstep⟩
  · exact ⟨Augmented.yields_eliminateFirst_zero_iff.mpr rfl, start⟩

end FirstSteps

/-! ### When a reduction happens -/

namespace Stage

variable {n : Nat} {R : Law} {i k : Fin n} {pivot : Scaled} {S T : Stage n}

/-- **A row that can be reduced** by row `i`: there is a multiplier for it, and with that
multiplier there is a product and a difference in every column from the `i`-th on. -/
def Reducible (R : Law) (i : Fin n) (pivot : Scaled) (S : Stage n) (k : Fin n) : Prop :=
  ∃ factor, R .divide (S.coefficient k i) pivot factor ∧ ∀ j, i.castSucc ≤ j →
    ∃ product, R .multiply factor (S.system.entry i j) product ∧
      ∃ difference, R .subtract (S.system.entry k j) product difference

/-- Whether a row can be reduced depends on that row and the pivot row, from column `i` on. -/
theorem Reducible.congr {k' : Fin n} (h : S.Reducible R i pivot k)
    (hpivot : ∀ j, i.castSucc ≤ j → T.system.entry i j = S.system.entry i j)
    (hrow : ∀ j, i.castSucc ≤ j → T.system.entry k' j = S.system.entry k j) :
    T.Reducible R i pivot k' := by
  obtain ⟨factor, hf, hcols⟩ := h
  refine ⟨factor, ?_, fun j hj => ?_⟩
  · rw [coefficient, hrow _ le_rfl]
    exact hf
  · rw [hpivot j hj, hrow j hj]
    exact hcols j hj

/-- A sweep along columns goes through if each of them has its two answers. -/
theorem exists_yields_reduceEntry {factor : Scaled} (hik : i ≠ k) {cols : List (Fin (n + 1))}
    (hcols : cols.Nodup)
    (h : ∀ j ∈ cols, ∃ product, R .multiply factor (S.system.entry i j) product ∧
      ∃ difference, R .subtract (S.system.entry k j) product difference) :
    ∃ S', Yields R (cols.foldlM (reduceEntry i k factor) S) S' := by
  induction cols generalizing S with
  | nil => exact ⟨S, yields_pure_iff.mpr rfl⟩
  | cons j cols ih =>
    obtain ⟨hj, hcols⟩ := List.nodup_cons.mp hcols
    obtain ⟨product, hp, difference, hd⟩ := h j List.mem_cons_self
    -- the entry written now is asked for in no later column
    obtain ⟨S', hS'⟩ := ih (S := { S with system := S.system.setEntry k j difference }) hcols
      (by
        intro j' hj'
        have hne : ¬(k = k ∧ j = j') := fun hc => hj (hc.2 ▸ hj')
        have hne' : ¬(k = i ∧ j = j') := fun hc => hik hc.1.symm
        rw [Grid.entry_setEntry, Grid.entry_setEntry, if_neg hne, if_neg hne']
        exact h j' (List.mem_cons_of_mem j hj'))
    refine ⟨S', ?_⟩
    rw [List.foldlM_cons, yields_bind_iff]
    refine ⟨_, ?_, hS'⟩
    simp only [reduceEntry, yields_bind_iff, yields_consult_iff, yields_pure_iff]
    exact ⟨product, hp, difference, hd, rfl⟩

/-- The rows of a list are reduced if each of them can be. -/
theorem exists_yields_reduceRow {rows : List (Fin n)} (hrows : rows.Nodup) (hi : i ∉ rows)
    (h : ∀ k ∈ rows, S.Reducible R i pivot k) :
    ∃ S', Yields R (rows.foldlM (reduceRow i pivot) S) S' := by
  induction rows generalizing S with
  | nil => exact ⟨S, yields_pure_iff.mpr rfl⟩
  | cons k rows ih =>
    obtain ⟨hk, hrows⟩ := List.nodup_cons.mp hrows
    obtain ⟨hik, hi⟩ : i ≠ k ∧ i ∉ rows := by simpa using hi
    obtain ⟨factor, hf, hcols⟩ := h k List.mem_cons_self
    obtain ⟨T, hT⟩ : ∃ T, Yields R (reduceRow i pivot S k) T := by
      simp only [reduceRow, yields_bind_iff, yields_consult_iff]
      obtain ⟨T, hT⟩ := exists_yields_reduceEntry
        (S := { S with lower := S.lower.setEntry k i factor }) hik (nodup_columnsFrom i)
        fun j hj => hcols j (mem_columnsFrom.mp hj)
      exact ⟨T, factor, hf, hT⟩
    -- the reduction of row `k` changes neither the pivot row nor the rows to come
    have hframe : ∀ l, l ≠ k → ∀ j, T.system.entry l j = S.system.entry l j := by
      intro l hlk j
      exact (reduced_singleton hik hT).system_frame l j fun hc => hlk (List.mem_singleton.mp hc.1)
    obtain ⟨S', hS'⟩ := ih (S := T) hrows hi fun l hl =>
      (h l (List.mem_cons_of_mem k hl)).congr (fun j _ => hframe i hik j)
        fun j _ => hframe l (fun hc => hk (hc ▸ hl)) j
    rw [List.foldlM_cons]
    exact ⟨S', yields_bind_iff.mpr ⟨T, hT, hS'⟩⟩

/-- **A reduction happens** exactly when every row below the pivot can be reduced. -/
theorem exists_yields_reduce_iff :
    (∃ S', Yields R (S.reduce i) S') ↔ ∀ k, i < k → S.Reducible R i (S.coefficient i i) k := by
  constructor
  · rintro ⟨S', hS'⟩ k hk
    have hr := reduced_of_yields hS'
    have hk' := mem_rowsBelow.mpr hk
    refine ⟨S'.lower.entry k i, hr.factor k hk', fun j hj => ?_⟩
    obtain ⟨product, hp, hd⟩ := hr.entry k hk' j hj
    exact ⟨product, hp, _, hd⟩
  · intro h
    exact exists_yields_reduceRow (nodup_rowsBelow i) (by simp) fun k hk =>
      h k (mem_rowsBelow.mp hk)

/-! ### What a reduction computes -/

section Agreement

variable {A : Arithmetic} {S' T' : Stage n} {rows : List (Fin n)} {k l : Fin n}

/-- Rows with the same entry in the pivot's column have the same multiplier. -/
theorem Reduced.factor_congr (hS : S.Reduced A.Answers i pivot rows S')
    (hT : T.Reduced A.Answers i pivot rows T') (hk : k ∈ rows) (hl : l ∈ rows)
    (h : T.coefficient l i = S.coefficient k i) : T'.lower.entry l i = S'.lower.entry k i := by
  have hfactor := hT.factor l hl
  rw [h] at hfactor
  exact hfactor.unique (hS.factor k hk)

/-- **Rows that agree are reduced to rows that agree**, in every column in which the pivot
rows agree too. -/
theorem Reduced.entry_congr (hS : S.Reduced A.Answers i pivot rows S')
    (hT : T.Reduced A.Answers i pivot rows T') (hk : k ∈ rows) (hl : l ∈ rows)
    (h : T.coefficient l i = S.coefficient k i) {j : Fin (n + 1)} (hj : i.castSucc ≤ j)
    (hpivot : T.system.entry i j = S.system.entry i j)
    (hrow : T.system.entry l j = S.system.entry k j) :
    T'.system.entry l j = S'.system.entry k j := by
  obtain ⟨product, hp, hd⟩ := hS.entry k hk j hj
  obtain ⟨product', hp', hd'⟩ := hT.entry l hl j hj
  rw [hS.factor_congr hT hk hl h, hpivot] at hp'
  obtain rfl : product' = product := hp'.unique hp
  rw [hrow] at hd'
  exact hd'.unique hd

end Agreement

end Stage

end ScaledGauss

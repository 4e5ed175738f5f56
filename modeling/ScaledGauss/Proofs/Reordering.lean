import ScaledGauss.Proofs.Lockstep
import ScaledGauss.Proofs.Solve

/-!
# The order of the equations

A scan leaves the rows below the pivot in an order that depends on the order they came in:
every improvement is an exchange of its own. If the largest entry of a column is never tied
this does not matter for the result. Of two systems with the same equations in different
orders, either both are eliminated or neither is, and the triangular systems left are the
same (`ScaledGauss.Stage.Rearranges.exists_eliminate`).

The invariant (`ScaledGauss.Stage.Rearranges`) is that the two states hold the same
equations up to a permutation that leaves the finished rows in place. Two things have to be
arranged for a step to keep it.

– **An exchange moves rows only.** A row that is exchanged at step `i` is moved from column
  `i` onward, which is all that later steps read of it; so an exchange in one of the two
  states only changes the permutation.
– **Both scans find the same pivot row.** A scan brings a largest entry of its column to the
  diagonal (`ScaledGauss.Stage.leads_scan`), and there is only one row it can come from.

After the scans the pivot rows agree, the rows below agree up to the permutation, and a row
is reduced without regard to the others.
-/

namespace ScaledGauss

open Plan

variable {n : Nat}

/-- **A sequence in another order**: place `k` holds what place `σ k` held. -/
def reorder {α : Type} (σ : Equiv.Perm (Fin n)) (v : Vector α n) : Vector α n :=
  .ofFn fun k => v.get (σ k)

/-- The equations of a system in another order. -/
theorem entry_join_reorder (σ : Equiv.Perm (Fin n)) (m : Grid n n) (b : Column n) (k : Fin n)
    (j : Fin (n + 1)) :
    (Augmented.join (reorder σ m) (reorder σ b)).entry k j =
      (Augmented.join m b).entry (σ k) j := by
  simp [Augmented.join, reorder, Grid.entry, Grid.ofEntries, vector_get]

namespace Stage

variable {t : Nat} {i : Fin n} {π ρ : Equiv.Perm (Fin n)} {S T U : Stage n}

/-! ### The same equations up to a permutation -/

/-- **The same equations in another order**, after a number of steps: the permutation leaves
the finished rows in place, and a row counts from its diagonal on or, if it is not finished,
from the column of the step at hand. -/
structure Rearranges (t : Nat) (π : Equiv.Perm (Fin n)) (S T : Stage n) : Prop where
  /-- The finished rows are in place. -/
  fixes : ∀ k : Fin n, k.val < t → π k = k
  /-- The other state holds the same entries. -/
  entry : ∀ (k : Fin n) (j : Fin (n + 1)), min k.val t ≤ j.val →
    T.system.entry k j = S.system.entry (π k) j

/-- A permutation that leaves the rows above row `t` in place moves none from below to
above. -/
theorem min_perm (h : ∀ k : Fin n, k.val < t → π k = k) (k : Fin n) :
    min (π k).val t = min k.val t := by
  rcases lt_or_ge k.val t with hk | hk
  · rw [h k hk]
  · have hge : t ≤ (π k).val := by
      by_contra hlt
      have hfix : π k = k := π.injective (h _ (not_le.mp hlt))
      rw [hfix] at hlt
      exact hlt hk
    rw [min_eq_right hge, min_eq_right hk]

namespace Rearranges

theorem refl (t : Nat) (S : Stage n) : S.Rearranges t (.refl _) S :=
  ⟨fun _ _ => rfl, fun _ _ _ => rfl⟩

theorem symm (h : S.Rearranges t π T) : T.Rearranges t π.symm S := by
  have hfixes : ∀ k : Fin n, k.val < t → π.symm k = k := by
    intro k hk
    rw [Equiv.symm_apply_eq, h.fixes k hk]
  refine ⟨hfixes, fun k j hj => ?_⟩
  rw [h.entry _ j ((min_perm hfixes k).trans_le hj), Equiv.apply_symm_apply]

theorem trans (h : S.Rearranges t π T) (h' : T.Rearranges t ρ U) :
    S.Rearranges t (ρ.trans π) U := by
  refine ⟨fun k hk => ?_, fun k j hj => ?_⟩
  · rw [Equiv.trans_apply, h'.fixes k hk, h.fixes k hk]
  · rw [h'.entry k j hj, h.entry _ j ((min_perm h'.fixes k).trans_le hj), Equiv.trans_apply]

/-- A row that is not finished stays so. -/
theorem le_iff (h : S.Rearranges i π T) (k : Fin n) : i ≤ π k ↔ i ≤ k := by
  have hmin := min_perm h.fixes k
  rw [Fin.le_def, Fin.le_def]
  omega

/-- In the column of the step at hand every row counts. -/
theorem coefficient_eq (h : S.Rearranges i π T) (k : Fin n) :
    T.coefficient k i = S.coefficient (π k) i :=
  h.entry k i.castSucc (min_le_right _ _)

end Rearranges

/-- An exchange at step `i` rearranges the rows that are not finished. -/
theorem rearranges_exchange (S : Stage n) {k : Fin n} (hik : i < k) :
    S.Rearranges i (Equiv.swap i k) (S.exchange i k) := by
  have hfixes : ∀ l : Fin n, l.val < i.val → Equiv.swap i k l = l := by
    intro l hl
    exact Equiv.swap_apply_of_ne_of_ne (by omega) (by omega)
  refine ⟨hfixes, fun l j hj => ?_⟩
  rw [entry_exchange]
  split
  · next hlt =>
    -- a column before the step counts in the finished rows only
    have hlt' : j.val < i.val := hlt
    rw [hfixes l (by omega)]
  · rfl

/-- **A scan rearranges** the rows that are not finished. -/
theorem rearranges_scan (S : Stage n) (i : Fin n) : ∃ π, S.Rearranges i π (S.scan i) := by
  refine scan_induction (P := fun T => ∃ π, S.Rearranges i π T) ?_ ⟨_, .refl _ S⟩
  rintro T k hik - ⟨π, hπ⟩
  exact ⟨_, hπ.trans (rearranges_exchange T hik)⟩

/-! ### The pivot row -/

/-- **Row `k` leads column `i`**: from row `i` on no entry of the column is larger. -/
def Leads (i : Fin n) (S : Stage n) (k : Fin n) : Prop :=
  i ≤ k ∧ ∀ l, i ≤ l → S.coefficient l i ≤ S.coefficient k i

instance (i : Fin n) (S : Stage n) (k : Fin n) : Decidable (S.Leads i k) :=
  inferInstanceAs (Decidable (_ ∧ _))

/-- **The pivot is not tied**: exactly one row leads its column. -/
def Untied (i : Fin n) (S : Stage n) : Prop := ∃! k, S.Leads i k

instance (i : Fin n) (S : Stage n) : Decidable (S.Untied i) :=
  inferInstanceAs (Decidable (∃ k, S.Leads i k ∧ ∀ l, S.Leads i l → l = k))

/-- After a scan the diagonal row leads. -/
theorem leads_scan (S : Stage n) (i : Fin n) : (S.scan i).Leads i i :=
  ⟨le_rfl, fun _ hl => coefficient_scan_le S hl⟩

/-- A row that leads after a rearrangement led before. -/
theorem Rearranges.leads (h : S.Rearranges i π T) {k : Fin n} (hk : T.Leads i k) :
    S.Leads i (π k) := by
  refine ⟨(h.le_iff k).mpr hk.1, fun l hl => ?_⟩
  -- row `l` is now the row that the inverse permutation names
  have hle := hk.2 (π.symm l) ((h.symm.le_iff l).mpr hl)
  rw [h.coefficient_eq, h.coefficient_eq, Equiv.apply_symm_apply] at hle
  exact hle

/-- **Both scans find the same pivot row** if there is only one to find: after them the
permutation leaves it in place. -/
theorem Rearranges.scan (h : S.Rearranges i π T) (hS : S.Untied i) :
    ∃ ρ, (S.scan i).Rearranges i ρ (T.scan i) ∧ ρ i = i := by
  obtain ⟨σ, hσ⟩ := rearranges_scan S i
  obtain ⟨τ, hτ⟩ := rearranges_scan T i
  have hboth : σ i = π (τ i) :=
    hS.unique (hσ.leads (leads_scan S i)) (h.leads (hτ.leads (leads_scan T i)))
  refine ⟨_, hσ.symm.trans (h.trans hτ), ?_⟩
  rw [Equiv.trans_apply, Equiv.trans_apply, ← hboth, Equiv.symm_apply_apply]

/-! ### The reduction -/

section Reduction

variable {A : Arithmetic} {R : Law} {S' T' : Stage n}

/-- The pivot rows agree from their diagonal on. -/
theorem Rearranges.entry_pivot (h : S.Rearranges i π T) (hi : π i = i) (j : Fin (n + 1))
    (hj : i.castSucc ≤ j) : T.system.entry i j = S.system.entry i j := by
  rw [h.entry i j ((min_le_right _ _).trans hj), hi]

/-- A permutation that leaves the pivot row in place too moves rows below it only. -/
theorem Rearranges.lt_perm (h : S.Rearranges i π T) (hi : π i = i) {k : Fin n} (hk : i < k) :
    i < π k := by
  have hne : π k ≠ i := fun hc => hk.ne' (π.injective (hc.trans hi.symm))
  exact lt_of_le_of_ne ((h.le_iff k).mpr hk.le) hne.symm

/-- **A reduction that happens in one order happens in the other.** -/
theorem Rearranges.exists_reduce (h : S.Rearranges i π T) (hi : π i = i)
    (hS : ∃ S', Yields R (S.reduce i) S') : ∃ T', Yields R (T.reduce i) T' := by
  rw [exists_yields_reduce_iff] at hS ⊢
  intro k hk
  have hpivot : T.coefficient i i = S.coefficient i i := h.entry_pivot hi _ le_rfl
  rw [hpivot]
  refine (hS (π k) (h.lt_perm hi hk)).congr (h.entry_pivot hi) fun j hj => ?_
  exact h.entry k j ((min_le_right _ _).trans hj)

/-- **A reduction keeps the equations the same** up to the permutation. -/
theorem Rearranges.reduce (h : S.Rearranges i π T) (hi : π i = i)
    (hS : Yields A.Answers (S.reduce i) S') (hT : Yields A.Answers (T.reduce i) T') :
    S'.Rearranges (i.val + 1) π T' := by
  have hpivot : T.coefficient i i = S.coefficient i i := h.entry_pivot hi _ le_rfl
  have hS' := reduced_of_yields hS
  have hT' := reduced_of_yields hT
  rw [hpivot] at hT'
  have hfixes : ∀ k : Fin n, k.val < i.val + 1 → π k = k := by
    intro k hk
    rcases Nat.lt_succ_iff_lt_or_eq.mp hk with hlt | heq
    · exact h.fixes k hlt
    · rw [Fin.ext heq, hi]
  refine ⟨hfixes, fun k j hj => ?_⟩
  rcases le_or_gt k i with hk | hk
  · -- the pivot row and the rows above it stay
    have hk' : k.val ≤ i.val := hk
    rw [hT'.entry_of_le hk, hfixes k (by omega), hS'.entry_of_le hk]
    have := h.entry k j (by omega)
    rwa [hfixes k (by omega)] at this
  · have hk' : i.val < k.val := hk
    have hij : i.castSucc ≤ j := by
      have : i.val ≤ j.val := by omega
      exact this
    exact hS'.entry_congr hT' (mem_rowsBelow.mpr (h.lt_perm hi hk)) (mem_rowsBelow.mpr hk)
      (h.coefficient_eq k) hij (h.entry_pivot hi j hij)
      (h.entry k j ((min_le_right _ _).trans hij))

end Reduction

/-! ### Steps and runs -/

section Runs

variable {A : Arithmetic} {a a' : Augmented n} {one zero : Scaled}

/-- **A step that happens in one order happens in the other**, whichever of the two that is,
and keeps the equations the same. -/
theorem Rearranges.exists_step (h : S.Rearranges i π T) (hS : S.Untied i) :
    (∀ S', Yields A.Answers (S.step i) S' →
      ∃ T' ρ, Yields A.Answers (T.step i) T' ∧ S'.Rearranges (i.val + 1) ρ T') ∧
    ∀ T', Yields A.Answers (T.step i) T' →
      ∃ S' ρ, Yields A.Answers (S.step i) S' ∧ S'.Rearranges (i.val + 1) ρ T' := by
  obtain ⟨ρ, hρ, hi⟩ := h.scan hS
  have hi' : ρ.symm i = i := by rw [Equiv.symm_apply_eq, hi]
  refine ⟨fun S' hS' => ?_, fun T' hT' => ?_⟩
  · obtain ⟨T', hT'⟩ := hρ.exists_reduce hi ⟨S', hS'⟩
    exact ⟨T', ρ, hT', hρ.reduce hi hS' hT'⟩
  · obtain ⟨S', hS'⟩ := hρ.symm.exists_reduce hi' ⟨T', hT'⟩
    exact ⟨S', ρ, hS', hρ.reduce hi hS' hT'⟩

/-- **Eliminations of the same equations in two orders**: if the pivot of the first is never
tied and one of the two ends, so does the other, with the same equations. -/
theorem Rearranges.exists_eliminate
    (hstart : (start one zero a).Rearranges 0 π (start one zero a'))
    (huntied : ∀ (i : Fin n) (S : Stage n),
      Yields A.Answers (a.eliminateFirst one zero i) S → S.Untied i) :
    (∀ S, Yields A.Answers (a.eliminate one zero) S →
      ∃ T ρ, Yields A.Answers (a'.eliminate one zero) T ∧ S.Rearranges n ρ T) ∧
    ∀ T, Yields A.Answers (a'.eliminate one zero) T →
      ∃ S ρ, Yields A.Answers (a.eliminate one zero) S ∧ S.Rearranges n ρ T := by
  have hzero : ∀ b : Augmented n,
      Yields A.Answers (b.eliminateFirst one zero 0) (start one zero b) := fun b =>
    Augmented.yields_eliminateFirst_zero_iff.mpr rfl
  refine ⟨fun S hS => ?_, fun T hT => ?_⟩
  · rw [← Augmented.eliminateFirst_all (a := a')]
    refine hS.step_induction (I := fun t S => ∃ T ρ,
      Yields A.Answers (a'.eliminateFirst one zero t) T ∧ S.Rearranges t ρ T)
      ⟨_, π, hzero a', hstart⟩ ?_
    rintro i S S' hreached ⟨T, ρ, hT, hρ⟩ hstep
    obtain ⟨T', ρ', hT', hρ'⟩ := (hρ.exists_step (huntied i S hreached)).1 S' hstep
    exact ⟨T', ρ', Augmented.yields_eliminateFirst_succ_iff.mpr ⟨T, hT, hT'⟩, hρ'⟩
  · rw [← Augmented.eliminateFirst_all (a := a)]
    refine hT.step_induction (I := fun t T => ∃ S ρ,
      Yields A.Answers (a.eliminateFirst one zero t) S ∧ S.Rearranges t ρ T)
      ⟨_, π, hzero a, hstart⟩ ?_
    rintro i T T' - ⟨S, ρ, hS, hρ⟩ hstep
    obtain ⟨S', ρ', hS', hρ'⟩ := (hρ.exists_step (huntied i S hS)).2 T' hstep
    exact ⟨S', ρ', Augmented.yields_eliminateFirst_succ_iff.mpr ⟨S, hS, hS'⟩, hρ'⟩

end Runs

/-- After the last step no row is out of place: the upper triangles are the same. -/
theorem Rearranges.entry_eq (h : S.Rearranges n π T) (k : Fin n) (j : Fin (n + 1))
    (hj : k.castSucc ≤ j) : T.system.entry k j = S.system.entry k j := by
  rw [h.entry k j ((min_le_left _ _).trans hj), h.fixes k k.isLt]

end Stage

/-- What back substitution returns over an arithmetic, after the check of the shape. -/
def Arithmetic.backSubstitute (A : Arithmetic) (a : Augmented n) : Except Error (Column n) :=
  (((LinearSystem.ofAugmented a).backSubstitute A.zero).eval A).mapError Stopped.cause

/-- The state held is the system itself, and it is not part of what is returned. -/
theorem Arithmetic.backSubstitute_of_pos {A : Arithmetic} (hn : 0 < n) (a : Augmented n) :
    A.backSubstitute a = (a.backSubstitute () A.zero).result A := by
  rw [Arithmetic.backSubstitute, LinearSystem.backSubstitute_of_augmented
    (LinearSystem.augmented_ofAugmented hn a),
    ← Augmented.mapHeld_backSubstitute (fun _ : Remains => ()) ⟨LinearSystem.ofAugmented a, []⟩,
    result_mapHeld]
  rfl

/-- **Back substitution returns** the unknowns that are all quotients of their dividends. -/
theorem Arithmetic.backSubstitute_eq_ok_iff {A : Arithmetic} (hn : 0 < n) {a : Augmented n}
    {x : Column n} :
    A.backSubstitute a = .ok x ↔ ∀ i, Augmented.Found A.Answers () A.zero a x i := by
  rw [backSubstitute_of_pos hn, result, mapError_eq_ok_iff, eval_eq_ok_iff]
  exact ⟨Augmented.found_of_yields, Augmented.yields_of_found⟩

/-- What back substitution returns depends on the upper triangle and the right-hand side. -/
theorem Arithmetic.backSubstitute_congr {A : Arithmetic} {a a' : Augmented n}
    (h : ∀ (k : Fin n) (j : Fin (n + 1)), k.castSucc ≤ j → a.entry k j = a'.entry k j) :
    A.backSubstitute a = A.backSubstitute a' := by
  rcases Nat.eq_zero_or_pos n with rfl | hn
  · rfl
  · rw [backSubstitute_of_pos hn, backSubstitute_of_pos hn, Augmented.backSubstitute_congr h]

/-- **The order of the equations does not matter** when the pivot is never tied: at every
step that the elimination of a system reaches, one row alone leads the column. Then the
system with its equations in any other order is eliminated exactly when this one is, the two
triangular systems have the same upper triangle and the same right-hand side, and so the same
result of back substitution and the same residual. -/
theorem Arithmetic.eliminate_reorder (A : Arithmetic) (m : Grid n n) (b : Column n)
    (σ : Equiv.Perm (Fin n))
    (huntied : ∀ (i : Fin n) (S : Stage n),
      ((Augmented.join m b).eliminateFirst A.one A.zero i).eval A = .ok S → S.Untied i) :
    ((∃ T, A.eliminate (.join (reorder σ m) (reorder σ b)) = .ok T) ↔
      ∃ S, A.eliminate (.join m b) = .ok S) ∧
    ∀ S T, A.eliminate (.join m b) = .ok S →
      A.eliminate (.join (reorder σ m) (reorder σ b)) = .ok T →
      (∀ i j, i ≤ j → T.upper.entry i j = S.upper.entry i j) ∧ T.rhs = S.rhs ∧
      A.backSubstitute T.system = A.backSubstitute S.system ∧
      ∀ (x : List Scaled) (fracBits : Nat),
        T.upper.upperResidual x T.rhs.toList fracBits =
          S.upper.upperResidual x S.rhs.toList fracBits := by
  have hstart : (Stage.start A.one A.zero (.join m b)).Rearranges 0 σ
      (.start A.one A.zero (.join (reorder σ m) (reorder σ b))) :=
    ⟨fun k hk => absurd hk (Nat.not_lt_zero _), fun k j _ => entry_join_reorder σ m b k j⟩
  obtain ⟨hforward, hbackward⟩ := hstart.exists_eliminate fun i S hS =>
    huntied i S (eval_eq_ok_iff.mpr hS)
  simp only [Arithmetic.eliminate_eq_ok_iff]
  refine ⟨⟨?_, ?_⟩, ?_⟩
  · rintro ⟨T, hn, hT⟩
    obtain ⟨S, -, hS, -⟩ := hbackward T hT
    exact ⟨S, hn, hS⟩
  · rintro ⟨S, hn, hS⟩
    obtain ⟨T, -, hT, -⟩ := hforward S hS
    exact ⟨T, hn, hT⟩
  · rintro S T ⟨-, hS⟩ ⟨-, hT⟩
    obtain ⟨T', ρ, hT', hρ⟩ := hforward S hS
    obtain rfl : T' = T := hT'.unique hT
    have hupper : ∀ i j, i ≤ j → T'.upper.entry i j = S.upper.entry i j := by
      intro i j hij
      simpa [Stage.upper, Augmented.matrix] using hρ.entry_eq i j.castSucc hij
    have hrhs : T'.rhs = S.rhs := by
      apply Vector.ext
      intro i hi
      simpa [Stage.rhs, Augmented.rhs] using hρ.entry_eq ⟨i, hi⟩ (Fin.last n) (Fin.le_last _)
    refine ⟨hupper, hrhs, Arithmetic.backSubstitute_congr hρ.entry_eq, fun x fracBits => ?_⟩
    rw [hrhs, Grid.upperResidual_congr hupper]

/-- Coefficients whose rows are exchanged in another way if they come in another order. -/
def lopsidedMatrix : Grid 3 3 :=
  #v[#v[⟨16⟩, ⟨70⟩, ⟨35⟩], #v[⟨50⟩, ⟨17⟩, ⟨80⟩], #v[⟨33⟩, ⟨90⟩, ⟨-20⟩]]

/-- A right-hand side to go with them. -/
def lopsidedRhs : Column 3 := #[⟨100⟩, ⟨-57⟩, ⟨40⟩].toVector

/-- The format in which they are eliminated: four fractional bits, truncating, wrapping. -/
def lopsidedFormat : Format where
  fracBits := 4
  rounding := .truncate
  overflow := .wrapping
  fracBits_le := four_le_maxFracBits

theorem Arithmetic.eliminate_reorder_lopsided :
    (∀ (i : Fin 3) (S : Stage 3), ((Augmented.join lopsidedMatrix lopsidedRhs).eliminateFirst
      lopsidedFormat.arithmetic.one lopsidedFormat.arithmetic.zero i).eval
        lopsidedFormat.arithmetic = .ok S → S.Untied i) ∧
    ∃ S T, lopsidedFormat.arithmetic.eliminate (.join lopsidedMatrix lopsidedRhs) = .ok S ∧
      lopsidedFormat.arithmetic.eliminate (.join (reorder (Equiv.swap 0 2) lopsidedMatrix)
        (reorder (Equiv.swap 0 2) lopsidedRhs)) = .ok T ∧
      S.swaps = [⟨0, 1⟩, ⟨1, 2⟩] ∧ T.swaps = [⟨0, 1⟩] ∧
      S.upper.entry 1 0 = ⟨1⟩ ∧ T.upper.entry 1 0 = ⟨2⟩ ∧
      T.upper.entry 2 2 = S.upper.entry 2 2 ∧ T.rhs = S.rhs ∧
      lopsidedFormat.arithmetic.backSubstitute T.system =
        lopsidedFormat.arithmetic.backSubstitute S.system := by
  have hchecked : ∀ i : Fin 3, (((Augmented.join lopsidedMatrix lopsidedRhs).eliminateFirst
      lopsidedFormat.arithmetic.one lopsidedFormat.arithmetic.zero i).eval
        lopsidedFormat.arithmetic).toOption.map (fun S => decide (S.Untied i)) = some true := by
    decide +kernel
  have huntied : ∀ (i : Fin 3) (S : Stage 3),
      ((Augmented.join lopsidedMatrix lopsidedRhs).eliminateFirst
        lopsidedFormat.arithmetic.one lopsidedFormat.arithmetic.zero i).eval
          lopsidedFormat.arithmetic = .ok S → S.Untied i := by
    intro i S hS
    obtain ⟨S', hS', huntied⟩ := exists_ok_of_view (hchecked i)
    obtain rfl : S' = S := Except.ok.inj (hS'.symm.trans hS)
    exact of_decide_eq_true huntied
  have hrun : (lopsidedFormat.arithmetic.eliminate
      (.join lopsidedMatrix lopsidedRhs)).toOption.map
        (fun S => (S.swaps, S.upper.entry 1 0)) = some ([⟨0, 1⟩, ⟨1, 2⟩], ⟨1⟩) := by
    decide +kernel
  have hturned : (lopsidedFormat.arithmetic.eliminate
      (.join (reorder (Equiv.swap 0 2) lopsidedMatrix)
        (reorder (Equiv.swap 0 2) lopsidedRhs))).toOption.map
        (fun T => (T.swaps, T.upper.entry 1 0)) = some ([⟨0, 1⟩], ⟨2⟩) := by
    decide +kernel
  obtain ⟨S, hS, hviewS⟩ := exists_ok_of_view hrun
  obtain ⟨T, hT, hviewT⟩ := exists_ok_of_view hturned
  obtain ⟨hswapsS, hentryS⟩ := Prod.mk.inj hviewS
  obtain ⟨hswapsT, hentryT⟩ := Prod.mk.inj hviewT
  obtain ⟨-, hsame⟩ := eliminate_reorder lopsidedFormat.arithmetic lopsidedMatrix lopsidedRhs
    (Equiv.swap 0 2) huntied
  obtain ⟨hupper, hrhs, hback, -⟩ := hsame S T hS hT
  exact ⟨huntied, S, T, hS, hT, hswapsS, hswapsT, hentryS, hentryT, hupper 2 2 le_rfl, hrhs,
    hback⟩

end ScaledGauss

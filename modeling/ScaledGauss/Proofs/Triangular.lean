import ScaledGauss.Proofs.EntryPoints
import ScaledGauss.Proofs.Exact.Solution
import ScaledGauss.Proofs.Reordering

/-!
# Systems that are triangular already

An elimination has nothing to do on a system with zeros below the diagonal and positive pivots: the
scan finds no entry that exceeds the pivot, every multiplier is zero, and what is subtracted from a
row is zero as well. All of this is exact, so it happens under every format, and no rounding, no
overflow and no refusal can come in between, however close to the ends of the range the other
entries are (`ScaledGauss.Format.eliminate_of_positiveTriangle`).

The last diagonal entry is no pivot, and it may have any value.

* **The scan** compares in vain (`ScaledGauss.Stage.foldl_compare_eq_self`).
* **The reduction** writes back what it reads (`ScaledGauss.Stage.yields_reduce_self`).
* **A solve** is then the back substitution alone, errors included
  (`ScaledGauss.LinearSystem.unknowns_of_eliminate`).
-/

namespace ScaledGauss

open Plan

variable {n : Nat} {scale : Nat}

namespace Grid

/-- An entry written back changes nothing. -/
theorem setEntry_entry {r c : Nat} (g : Grid r c) (i : Fin r) (j : Fin c) :
    g.setEntry i j (g.entry i j) = g := by
  ext k l
  rw [entry_setEntry]
  split
  · next h => rw [h.1, h.2]
  · rfl

/-- **A triangle with positive pivots**: zeros below the diagonal, and positive values on it, the
last entry perhaps apart. -/
structure PositiveTriangle (u : Grid n n) : Prop where
  /-- Below the diagonal there are zeros. -/
  below : ∀ k i, i < k → u.entry k i = .zero
  /-- A diagonal entry with rows below it is positive. -/
  pivot : ∀ i : Fin n, i.val + 1 < n → .zero < u.entry i i

end Grid

namespace Stage

variable {i k : Fin n} {S : Stage n}

/-! ### Steps that change nothing -/

/-- **A scan of rows that do not exceed the pivot** exchanges none of them. -/
theorem foldl_compare_eq_self {rows : List (Fin n)}
    (h : ∀ k ∈ rows, S.coefficient k i ≤ S.coefficient i i) : rows.foldl (compare i) S = S := by
  induction rows with
  | nil => rfl
  | cons k rows ih =>
    have hk : ¬S.coefficient i i < S.coefficient k i := by
      rw [Scaled.lt_iff_val, not_lt, ← Scaled.le_iff_val]
      exact h k List.mem_cons_self
    rw [List.foldl_cons, compare, if_neg hk]
    exact ih fun l hl => h l (List.mem_cons_of_mem k hl)

/-- With multiplier zero an entry is written back. -/
theorem yields_reduceEntry_self (S : Stage n) (i k : Fin n) (j : Fin (n + 1)) :
    Yields (.exact scale) (reduceEntry i k .zero S j) S := by
  simp only [reduceEntry, yields_bind_iff, yields_consult_iff, yields_pure_iff]
  refine ⟨.zero, ?_, S.system.entry k j, ?_, ?_⟩
  · exact (zero_mul _).trans (zero_mul _).symm
  · exact (sub_zero _).symm
  · rw [Grid.setEntry_entry]

/-- **A row that is zero in the column of the pivot** is reduced to itself, its multiplier zero. -/
theorem yields_reduceRow_self {pivot : Scaled} (hpivot : pivot.val ≠ 0)
    (hentry : S.coefficient k i = .zero) (hlower : S.lower.entry k i = .zero) :
    Yields (.exact scale) (reduceRow i pivot S k) S := by
  simp only [reduceRow, yields_bind_iff, yields_consult_iff]
  refine ⟨.zero, ⟨hpivot, ?_⟩, ?_⟩
  · rw [hentry, Scaled.val_zero, zero_mul, zero_mul]
  · rw [← hlower, Grid.setEntry_entry, hlower]
    exact yields_foldlM_self fun j _ => S.yields_reduceEntry_self i k j

/-- **A column that is zero below the pivot** needs no reduction. -/
theorem yields_reduce_self (hpivot : i.val + 1 < n → (S.coefficient i i).val ≠ 0)
    (hentry : ∀ k, i < k → S.coefficient k i = .zero)
    (hlower : ∀ k, i < k → S.lower.entry k i = .zero) :
    Yields (.exact scale) (S.reduce i) S := by
  refine yields_foldlM_self fun k hk => ?_
  have hik := mem_rowsBelow.mp hk
  have hrows : i.val + 1 < n := Nat.lt_of_le_of_lt hik k.isLt
  exact yields_reduceRow_self (hpivot hrows) (hentry k hik) (hlower k hik)

/-- **A step on a finished column** with a positive pivot does nothing. -/
theorem yields_step_self (hpivot : i.val + 1 < n → .zero < S.coefficient i i)
    (hentry : ∀ k, i < k → S.coefficient k i = .zero)
    (hlower : ∀ k, i < k → S.lower.entry k i = .zero) :
    Yields (.exact scale) (S.step i) S := by
  have hscan : S.scan i = S := by
    refine foldl_compare_eq_self fun k hk => ?_
    have hik := mem_rowsBelow.mp hk
    have hpos := hpivot (Nat.lt_of_le_of_lt hik k.isLt)
    rw [Scaled.lt_iff_val] at hpos
    rw [hentry k hik, Scaled.le_iff_val]
    exact hpos.le
  rw [step, hscan]
  refine yields_reduce_self (fun hi => ?_) hentry hlower
  have hpos := hpivot hi
  rw [Scaled.lt_iff_val, Scaled.val_zero] at hpos
  exact hpos.ne'

end Stage

/-! ### Runs that change nothing -/

/-- **An elimination of a triangle** ends where it starts. -/
theorem Augmented.yields_eliminate_self {a : Augmented n} (h : a.matrix.PositiveTriangle)
    (one : Scaled) : Yields (.exact scale) (a.eliminate one .zero) (.start one .zero a) := by
  have hentry : ∀ k i, a.matrix.entry k i = (Stage.start one .zero a).coefficient k i :=
    fun k i => Grid.entry_ofEntries _ _ _
  refine yields_foldlM_self fun i _ => Stage.yields_step_self ?_ ?_ ?_
  · intro hi
    rw [← hentry]
    exact h.pivot i hi
  · intro k hik
    rw [← hentry]
    exact h.below k i hik
  · intro k hik
    exact (Grid.entry_ofEntries _ _ _).trans (if_neg hik.ne')

/-- **After an elimination the unknowns are those of a back substitution**, and so is the error if
there are none. -/
theorem LinearSystem.unknowns_of_eliminate {A : Arithmetic} {a : Augmented n} {S : Stage n}
    (hS : A.eliminate a = .ok S) : (ofAugmented a).unknowns A = A.backSubstitute S.system := by
  obtain ⟨hn, hyields⟩ := Arithmetic.eliminate_eq_ok_iff.mp hS
  have hresult : (a.eliminate A.one A.zero).result A = .ok S :=
    mapError_eq_ok_iff.mpr (eval_eq_ok_iff.mpr hyields)
  have hsolve : (a.solve A.one A.zero).result A =
      (S.system.backSubstitute () A.zero).result A >>= fun x => .ok (S, x) := by
    rw [Augmented.solve, result_bind, hresult, ok_bind, result_bind,
      ← Augmented.mapHeld_backSubstitute (fun _ : Stage n => ()) S, result_mapHeld]
    rfl
  have hunknowns : (ofAugmented a).unknowns A =
      ((S.system.backSubstitute () A.zero).result A >>= fun x => .ok (S, x)).map Prod.snd :=
    congrArg (Except.map Prod.snd) ((result_solve (augmented_ofAugmented hn a)).trans hsolve)
  rw [hunknowns, Arithmetic.backSubstitute_of_pos hn]
  cases (S.system.backSubstitute () A.zero).result A <;> rfl

namespace Format

/-- **An elimination that leaves its system alone**: it returns the coefficients and the right-hand
side as they were, an identity matrix for the multipliers, and no exchange. -/
def LeavesAlone (f : Format) (u : Grid n n) (b : Column n) : Prop :=
  ∃ S, f.arithmetic.eliminate (.join u b) = .ok S ∧ S.upper = u ∧ S.rhs = b ∧
    S.lower = .identity n f.arithmetic.one f.arithmetic.zero ∧ S.swaps = []

/-- **Every format leaves triangles alone.** -/
theorem eliminate_of_positiveTriangle (f : Format) (hn : 0 < n) {u : Grid n n}
    (h : u.PositiveTriangle) (b : Column n) :
    f.arithmetic.eliminate (.join u b) =
      .ok (.start f.arithmetic.one f.arithmetic.zero (.join u b)) := by
  refine Arithmetic.eliminate_eq_ok_iff.mpr ⟨hn, ?_⟩
  have hexact : Yields (.exact (pow2 f.fracBits))
      ((Augmented.join u b).eliminate f.arithmetic.one .zero)
      (.start f.arithmetic.one .zero (.join u b)) :=
    Augmented.yields_eliminate_self (by rwa [Augmented.matrix_join]) _
  exact hexact.mono fun _ _ _ _ h => f.apply_of_exact h

theorem leavesAlone_of_positiveTriangle (f : Format) (hn : 0 < n) {u : Grid n n}
    (h : u.PositiveTriangle) (b : Column n) : f.LeavesAlone u b := by
  refine ⟨_, f.eliminate_of_positiveTriangle hn h b, ?_, ?_, rfl, rfl⟩
  · exact Augmented.matrix_join u b
  · exact Augmented.rhs_join u b

/-- **An elimination leaves a triangular system alone**, under every format. If the coefficients
are zero below the diagonal and positive on it, the last entry perhaps apart, then whatever else
they are and whatever the right-hand side is, the elimination returns, with both as they were, an
identity matrix for the multipliers and no exchange. So a solve of such a system is its back
substitution, errors included; and to eliminate what an elimination has left changes nothing if
there is no residue below the diagonal and the pivots are positive. -/
theorem triangle_left_alone (f : Format) :
    (∀ (u : Grid (n + 1) (n + 1)) (b : Column (n + 1)), u.PositiveTriangle →
      f.LeavesAlone u b ∧ (LinearSystem.ofAugmented (.join u b)).unknowns f.arithmetic =
        f.arithmetic.backSubstitute (.join u b)) ∧
    ∀ (a : Augmented (n + 1)) (T : Stage (n + 1)), f.arithmetic.eliminate a = .ok T →
      T.upper.PositiveTriangle → f.LeavesAlone T.upper T.rhs := by
  refine ⟨fun u b hu => ⟨f.leavesAlone_of_positiveTriangle n.succ_pos hu b, ?_⟩,
    fun a T _ hT => f.leavesAlone_of_positiveTriangle n.succ_pos hT T.rhs⟩
  have hunknowns :=
    LinearSystem.unknowns_of_eliminate (f.eliminate_of_positiveTriangle n.succ_pos hu b)
  rwa [Stage.start] at hunknowns

end Format

/-- A triangle with the ends of the range in it. The last diagonal entry is negative. -/
def extremeTriangle : Grid 3 3 :=
  #v[#v[⟨1⟩, .least, .greatest], #v[⟨0⟩, .greatest, .least], #v[⟨0⟩, ⟨0⟩, ⟨-5⟩]]

/-- A right-hand side to go with it. -/
def extremeRhs : Column 3 := #v[.least, .greatest, ⟨7⟩]

/-- The format in which it is solved: as many fractional bits as there can be, to nearest,
checked. -/
def extremeFormat : Format where
  fracBits := maxFracBits
  rounding := .nearest
  overflow := .checked
  fracBits_le := Nat.le_refl maxFracBits

theorem Format.triangle_left_alone_extreme :
    extremeTriangle.PositiveTriangle ∧ extremeFormat.LeavesAlone extremeTriangle extremeRhs ∧
    extremeFormat.arithmetic.backSubstitute (.join extremeTriangle extremeRhs) =
      .error (.overflow "multiply") ∧
    (LinearSystem.ofAugmented (.join extremeTriangle extremeRhs)).unknowns
      extremeFormat.arithmetic = .error (.overflow "multiply") ∧
    ∃ T, evenFormat.arithmetic.eliminate (.join evenMatrix evenRhs) = .ok T ∧
      T.swaps = [⟨0, 1⟩] ∧ T.upper.PositiveTriangle ∧ evenFormat.LeavesAlone T.upper T.rhs := by
  have hextreme : extremeTriangle.PositiveTriangle := ⟨by decide +kernel, by decide +kernel⟩
  have hback : extremeFormat.arithmetic.backSubstitute (.join extremeTriangle extremeRhs) =
      .error (.overflow "multiply") := by
    decide +kernel
  have hview : (evenFormat.arithmetic.eliminate (.join evenMatrix evenRhs)).toOption.map
      (fun T => (T.swaps, T.upper)) = some ([⟨0, 1⟩],
        #v[#v[⟨4⟩, ⟨4⟩, ⟨8⟩], #v[⟨0⟩, ⟨4⟩, ⟨0⟩], #v[⟨0⟩, ⟨0⟩, ⟨12⟩]]) := by
    decide +kernel
  obtain ⟨halone, hunknowns⟩ :=
    (triangle_left_alone extremeFormat).1 extremeTriangle extremeRhs hextreme
  obtain ⟨T, hT, hpair⟩ := exists_ok_of_view hview
  obtain ⟨hswaps, hupper⟩ := Prod.mk.inj hpair
  have heven : T.upper.PositiveTriangle := by
    rw [hupper]
    exact ⟨by decide +kernel, by decide +kernel⟩
  exact ⟨hextreme, halone, hback, hunknowns.trans hback, T, hT, hswaps, heven,
    (triangle_left_alone evenFormat).2 _ T hT heven⟩

end ScaledGauss

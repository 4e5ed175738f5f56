import ScaledGauss.Proofs.Faults
import ScaledGauss.Proofs.Guarded.Program

/-!
# The guarded elimination

The elimination with every access guarded (`ScaledGauss.Guarded.eliminate`) does what the
elimination does, so none of its guards ever fails. The two programs differ in three ways, and
each is bridged once.

* **Numbers and indices.** A guarded access at the number of an index is the access at that
  index (`ScaledGauss.Guarded.entry_val` and its like), and the numbers that a loop runs over
  are those of the rows below (`ScaledGauss.Guarded.span_succ`).
* **Words.** The operations of a format are computed in other words than
  `ScaledGauss.Format.arithmetic` takes, with the same answers
  (`ScaledGauss.Guarded.apply_eq`).
* **States.** The program holds the system taken apart; what it holds is a view of a stage
  (`ScaledGauss.Guarded.memory`). Where each round of one loop is a round of the other seen
  through this view, so are the loops (`ScaledGauss.Guarded.foldlM_view`).

## Main results

– `ScaledGauss.Guarded.apply_eq`, `ScaledGauss.Guarded.one_eq`: the arithmetic;
– `ScaledGauss.Guarded.step_memory`: one step;
– `ScaledGauss.Guarded.eliminate_eq`: the elimination.
-/

namespace ScaledGauss

namespace Guarded

open Plan

/-! ### The arithmetic -/

section Arithmetic

/-- The sign is put back onto a rounded quotient that has it already: half a unit alone is
rounded off. -/
theorem sign_mul_ediv {z : Int} (hz : 0 ≤ z) {half scale : Nat} (h : half < scale) :
    z.sign * ((z + half) / scale) = (z + half) / scale := by
  rcases hz.lt_or_eq with hlt | rfl
  · rw [Int.sign_eq_one_of_pos hlt, one_mul]
  · rw [zero_add, Int.ediv_eq_zero_of_lt (by omega) (by exact_mod_cast h), mul_zero]

/-- The two ways to bring a half away from zero agree on every product of two raw values. -/
theorem roundProduct_eq (f : Format) {z : Int} (hz : z.natAbs ≤ 0x4000000000000000) :
    roundProduct f z = f.roundProduct z := by
  have hk : f.fracBits ≤ 30 := f.fracBits_le
  cases hr : f.rounding with
  | truncate => rw [roundProduct, Format.roundProduct, hr]
  | nearest =>
    simp only [roundProduct, Format.roundProduct, hr]
    by_cases h0 : f.fracBits = 0
    · rw [if_pos h0, if_pos h0]
    · have hhalf : pow2 (f.fracBits - 1) ≤ 1073741824 :=
        Nat.pow_le_pow_right (j := 30) (by decide) (by omega)
      have hfits : Word.Fits 64 (1 * pow2 (f.fracBits - 1)) := Word.fits_of_natAbs_lt (by omega)
      rw [if_neg h0, if_neg h0, less, if_pos (by omega), ok_bind, Word.shiftLeft,
        if_pos (by omega), Word.fit_eq_ok hfits, ok_bind, ok_bind, one_mul]
      by_cases hpos : 0 ≤ z
      · have habs : (z.natAbs : Int) = z := Int.natAbs_of_nonneg hpos
        have hsum : Word.Fits 64 (z + pow2 (f.fracBits - 1)) := Word.fits_of_natAbs_lt (by omega)
        have hle : (z + pow2 (f.fracBits - 1)) / pow2 f.fracBits ≤ z + pow2 (f.fracBits - 1) :=
          Int.ediv_le_self _ (by omega)
        have hge : 0 ≤ (z + pow2 (f.fracBits - 1)) / (pow2 f.fracBits : Int) :=
          Int.ediv_nonneg (by omega) (by omega)
        have hquotient : Word.Fits 64 ((z + pow2 (f.fracBits - 1)) / pow2 f.fracBits) :=
          Word.fits_of_natAbs_lt (by omega)
        have hlt : pow2 (f.fracBits - 1) < pow2 f.fracBits :=
          Nat.pow_lt_pow_right (by decide) (by omega)
        rw [if_pos hpos, habs, Word.add, Word.fit_eq_ok hsum, ok_bind, ok_bind, Word.shiftRight,
          if_pos (by omega), ok_bind, Word.mul, sign_mul_ediv hpos hlt, Word.fit_eq_ok hquotient]
      · have hsign : z.sign = -1 := Int.sign_eq_neg_one_of_neg (Int.not_le.mp hpos)
        have habs : (z.natAbs : Int) + pow2 (f.fracBits - 1) = pow2 (f.fracBits - 1) - z := by
          omega
        simp only [if_neg hpos, Word.add, Word.sub, Word.mul, habs, hsign, neg_one_mul, zero_sub]

/-- The product of two signs always fits. -/
theorem roundQuotient_eq (f : Format) (p q : Int) : roundQuotient f p q = f.roundQuotient p q := by
  have hsign : Word.mul 64 p.sign q.sign = .ok (p.sign * q.sign) := by
    refine Word.fit_eq_ok (Word.fits_of_natAbs_lt ?_)
    have h1 := natAbs_sign_mul_le p q.sign
    have h2 := natAbs_sign_mul_le q 1
    rw [mul_one] at h2
    omega
  cases hr : f.rounding with
  | truncate => simp only [roundQuotient, Format.roundQuotient, hr]
  | nearest => simp only [roundQuotient, Format.roundQuotient, hr, hsign, ok_bind]

/-- **The operations are those of the format.** -/
theorem apply_eq (f : Format) : apply f = f.arithmetic.apply := by
  funext op a b
  cases op with
  | multiply =>
    have hm := Scaled.natAbs_val_mul_le a b
    change _ = f.multiply a b
    rw [apply, Format.multiply, Word.mul, Word.fit_eq_ok (Word.fits_of_natAbs_lt (by omega)),
      ok_bind, ok_bind, roundProduct_eq f hm]
  | divide =>
    have hzero : b.isZero = true ↔ b.val = 0 := by
      rw [Scaled.isZero, decide_eq_true_eq, Scaled.ext_val_iff, Scaled.val_zero]
    change _ = f.divide a b
    simp only [apply, Format.divide, hzero, roundQuotient_eq]
  | add => rfl
  | subtract => rfl

/-- With at most thirty places the shift stays within 32 bits. -/
theorem one_eq (f : Format) : one f = .ok f.one := by
  have hk : f.fracBits ≤ 30 := f.fracBits_le
  have hpow : pow2 f.fracBits ≤ pow2 30 := Nat.pow_le_pow_right (by decide) hk
  have hfits : Word.Fits 32 (1 * pow2 f.fracBits) := by
    have h30 : pow2 30 = 1073741824 := rfl
    have h31 : pow2 (32 - 1) = 2147483648 := rfl
    constructor <;> omega
  rw [one, Word.shiftLeft, if_pos (by omega), Word.fit_eq_ok hfits, Int.one_mul]
  rfl

end Arithmetic

/-! ### Accesses -/

section Accesses

variable {r c n : Nat}

@[simp] theorem entry_val (g : Grid r c) (i : Fin r) (j : Fin c) :
    entry g i j = .ok (g.entry i j) :=
  dif_pos ⟨i.isLt, j.isLt⟩

@[simp] theorem setEntry_val (g : Grid r c) (i : Fin r) (j : Fin c) (a : Scaled) :
    setEntry g i j a = .ok (g.setEntry i j a) :=
  dif_pos ⟨i.isLt, j.isLt⟩

@[simp] theorem get_val (x : Column n) (i : Fin n) : get x i = .ok (x.get i) :=
  dif_pos i.isLt

@[simp] theorem set_val (x : Column n) (i : Fin n) (a : Scaled) :
    set x i a = .ok (x.set i.val a i.isLt) :=
  dif_pos i.isLt

theorem span_zero (n : Nat) : span 0 n = (List.finRange n).map Fin.val := by
  rw [span, Nat.sub_zero, ← List.range_eq_range', ← List.map_coe_finRange_eq_range]

/-- The numbers after a row are those of the rows below it. -/
theorem span_succ (i : Fin n) : span (i.val + 1) n = (rowsBelow i).map Fin.val := by
  rw [Grid.rowsBelow_eq_drop, List.map_drop, ← span_zero, span, span, List.drop_range']
  simp

theorem span_val (i : Fin n) : span i n = (i :: rowsBelow i).map Fin.val := by
  have hlength : n - i.val = n - (i.val + 1) + 1 := by omega
  rw [List.map_cons, ← span_succ, span, span, hlength, List.range'_succ]

end Accesses

/-! ### Loops -/

section Loops

variable {ε α β γ ι κ : Type}

/-- **Two loops in step**: where each round of one is a round of the other seen through a
view, so are the loops. -/
theorem foldlM_view {view : α → β} {index : ι → κ} {f : α → ι → Except ε α}
    {g : β → κ → Except ε β} {l : List ι}
    (h : ∀ a, ∀ x ∈ l, g (view a) (index x) = (f a x).map view) (a : α) :
    (l.map index).foldlM g (view a) = (l.foldlM f a).map view := by
  induction l generalizing a with
  | nil => rfl
  | cons x l ih =>
    rw [List.map_cons, List.foldlM_cons, List.foldlM_cons, h a x List.mem_cons_self]
    cases f a x with
    | error e => rfl
    | ok a' => exact ih (fun a y hy => h a y (List.mem_cons_of_mem x hy)) a'

theorem map_bind (x : Except ε α) (view : α → β) (k : β → Except ε γ) :
    x.map view >>= k = x >>= fun a => k (view a) := by
  cases x with
  | error e => rfl
  | ok a => rfl

theorem bind_map (x : Except ε α) (k : α → Except ε β) (view : β → γ) :
    (x >>= k).map view = x >>= fun a => (k a).map view := by
  cases x with
  | error e => rfl
  | ok a => rfl

end Loops

/-! ### Systems taken apart -/

theorem column_ext {n : Nat} {x y : Column n} (h : ∀ i : Fin n, x.get i = y.get i) : x = y := by
  apply Vector.ext
  intro i hi
  exact h ⟨i, hi⟩

section Systems

variable {n : Nat} (a : Augmented n) (i k : Fin n)

@[simp] theorem entry_matrix (j : Fin n) : a.matrix.entry i j = a.entry i j.castSucc := by
  rw [Augmented.matrix, Grid.entry_ofEntries]

theorem matrix_setEntry (j : Fin n) (v : Scaled) :
    Augmented.matrix (a.setEntry k j.castSucc v) = a.matrix.setEntry k j v := by
  ext l m
  simp [Grid.entry_setEntry]

theorem rhs_setEntry (j : Fin n) (v : Scaled) :
    Augmented.rhs (a.setEntry k j.castSucc v) = a.rhs := by
  refine column_ext fun l => ?_
  rw [Augmented.get_rhs, Augmented.get_rhs, Grid.entry_setEntry,
    if_neg fun h => (Fin.castSucc_lt_last j).ne h.2]

theorem matrix_setEntry_last (v : Scaled) :
    Augmented.matrix (a.setEntry k (Fin.last n) v) = a.matrix := by
  ext l m
  rw [entry_matrix, entry_matrix, Grid.entry_setEntry,
    if_neg fun h => (Fin.castSucc_lt_last m).ne h.2.symm]

theorem rhs_setEntry_last (v : Scaled) :
    Augmented.rhs (a.setEntry k (Fin.last n) v) = a.rhs.set k.val v k.isLt := by
  refine column_ext fun l => ?_
  rw [Augmented.get_rhs, Grid.entry_setEntry, vector_get_set, Augmented.get_rhs]
  simp

theorem matrix_swapFrom (start : Nat) :
    Augmented.matrix (a.swapFrom i k start) = a.matrix.swapFrom i k start := by
  ext l m
  simp [Grid.entry_swapFrom]

theorem rhs_swapFrom {start : Nat} (hstart : start ≤ n) :
    Augmented.rhs (a.swapFrom i k start) =
      (a.rhs.set i.val (a.rhs.get k) i.isLt).set k.val (a.rhs.get i) k.isLt := by
  refine column_ext fun l => ?_
  rw [Augmented.get_rhs, Grid.entry_swapFrom, if_neg (by simpa using hstart), vector_get_set,
    vector_get_set]
  simp only [Augmented.get_rhs]
  grind

end Systems

/-! ### The elimination -/

section Elimination

variable {n : Nat} {i k : Fin n}

/-- **The memory of a stage**: its system taken apart, without the events. -/
def memory (S : Stage n) : Memory n :=
  ⟨S.system.matrix, S.system.rhs, S.lower, S.swaps⟩

theorem entry_memory (S : Stage n) (l j : Fin n) :
    entry (memory S).matrix l j = .ok (S.coefficient l j) := by
  rw [entry_val, memory, entry_matrix, Stage.coefficient]

theorem get_memory (S : Stage n) (l : Fin n) :
    get (memory S).rhs l = .ok (S.system.entry l (Fin.last n)) := by
  rw [get_val, memory, Augmented.get_rhs]

/-- Exchanging entries column by column exchanges them in the columns of the loop. -/
theorem foldlM_swapColumn (hik : i ≠ k) {columns : List (Fin n)} (hc : columns.Nodup)
    (m : Grid n n) :
    ∃ m', (columns.map Fin.val).foldlM (swapColumn i k) m = .ok m' ∧
      ∀ l j, m'.entry l j =
        if j ∈ columns then
          if l = i then m.entry k j else if l = k then m.entry i j else m.entry l j
        else m.entry l j := by
  induction columns generalizing m with
  | nil => exact ⟨m, rfl, fun l j => rfl⟩
  | cons c columns ih =>
    obtain ⟨hnot, hnodup⟩ := List.nodup_cons.mp hc
    obtain ⟨m', hm', hentry⟩ :=
      ih hnodup ((m.setEntry i c (m.entry k c)).setEntry k c (m.entry i c))
    refine ⟨m', ?_, fun l j => ?_⟩
    · rw [List.map_cons, List.foldlM_cons, ← hm']
      simp [swapColumn]
    · rw [hentry]
      simp only [Grid.entry_setEntry, List.mem_cons]
      grind

theorem exchange_memory (hik : i ≠ k) (S : Stage n) :
    exchange (memory S) i k i = .ok { memory (S.exchange i k) with swaps := S.swaps } := by
  have hnodup : (i :: rowsBelow i).Nodup :=
    List.nodup_cons.mpr ⟨by simp, nodup_rowsBelow i⟩
  obtain ⟨m, hm, hentry⟩ := foldlM_swapColumn hik hnodup S.system.matrix
  -- the columns from `i` on are those that are not before column `i`
  have hmatrix : m = Augmented.matrix (S.system.swapFrom i k i) := by
    rw [matrix_swapFrom]
    ext l j
    have hmem : j ∈ i :: rowsBelow i ↔ ¬ j.val < i.val := by
      simp only [List.mem_cons, mem_rowsBelow, Fin.ext_iff, Fin.lt_def]
      omega
    rw [hentry, Grid.entry_swapFrom]
    simp only [hmem, ite_not]
  rw [exchange, if_neg fun h => hik (Fin.ext h), span_val, memory, hm, ok_bind, get_val, ok_bind,
    get_val, ok_bind, set_val, ok_bind, set_val, ok_bind, hmatrix,
    ← rhs_swapFrom S.system i k i.isLt.le]
  rfl

theorem compare_memory (hik : i ≠ k) (S : Stage n) :
    compare i (memory S) k = .ok (memory (S.compare i k)) := by
  rw [compare, entry_memory, ok_bind, entry_memory, ok_bind, Stage.compare]
  split
  · rw [exchange_memory hik, ok_bind]
    rfl
  · rfl

theorem memory_setEntry (S : Stage n) (j : Fin n) (v : Scaled) :
    memory { S with system := S.system.setEntry k j.castSucc v } =
      { memory S with matrix := S.system.matrix.setEntry k j v } := by
  rw [memory, matrix_setEntry, rhs_setEntry, memory]

theorem memory_setEntry_last (S : Stage n) (v : Scaled) :
    memory { S with system := S.system.setEntry k (Fin.last n) v } =
      { memory S with rhs := S.system.rhs.set k.val v k.isLt } := by
  rw [memory, matrix_setEntry_last, rhs_setEntry_last, memory]

variable (f : Format)

theorem reduceEntry_memory (factor : Scaled) (S : Stage n) (j : Fin n) :
    reduceEntry f i k factor (memory S) j =
      ((S.reduceEntry i k factor j.castSucc).result f.arithmetic).map memory := by
  rw [reduceEntry, Stage.reduceEntry, entry_memory, ok_bind, entry_memory, apply_eq, result_bind,
    result_consult, bind_map]
  refine congrArg _ (funext fun product => ?_)
  rw [ok_bind, result_bind, result_consult, bind_map]
  refine congrArg _ (funext fun difference => ?_)
  rw [setEntry_val, ok_bind]
  exact congrArg Except.ok (memory_setEntry S j difference).symm

theorem reduceRhs_memory (factor : Scaled) (S : Stage n) :
    reduceRhs f i k factor (memory S) =
      ((S.reduceEntry i k factor (Fin.last n)).result f.arithmetic).map memory := by
  rw [reduceRhs, Stage.reduceEntry, get_memory, ok_bind, get_memory, apply_eq, result_bind,
    result_consult, bind_map]
  refine congrArg _ (funext fun product => ?_)
  rw [ok_bind, result_bind, result_consult, bind_map]
  refine congrArg _ (funext fun difference => ?_)
  rw [set_val, ok_bind]
  exact congrArg Except.ok (memory_setEntry_last S difference).symm

theorem filter_le_finRange (i : Fin n) :
    (List.finRange n).filter (i ≤ ·) = i :: rowsBelow i := by
  have hsplit : List.finRange n = (List.finRange n).take i ++ i :: rowsBelow i := by
    have hdrop : (List.finRange n).drop i = i :: rowsBelow i := by
      rw [List.drop_eq_getElem_cons (by simp), Grid.rowsBelow_eq_drop, List.getElem_finRange]
      rfl
    rw [← hdrop, List.take_append_drop]
  have htake : ∀ k ∈ (List.finRange n).take i, ¬ i ≤ k := by
    intro k hk
    obtain ⟨t, ht, rfl⟩ := List.mem_take_iff_getElem.mp hk
    rw [List.getElem_finRange, Fin.le_def, Fin.val_cast]
    simp only
    omega
  have hrest : ∀ k ∈ i :: rowsBelow i, i ≤ k := by
    intro k hk
    rcases List.mem_cons.mp hk with rfl | hk
    · exact le_rfl
    · exact (mem_rowsBelow.mp hk).le
  rw [hsplit, List.filter_append, List.filter_eq_nil_iff.mpr (by simpa using htake),
    List.filter_eq_self.mpr (by simpa using hrest), List.nil_append]

/-- The columns of the augmented matrix from column `i` on: those of the matrix, then the
right-hand side. -/
theorem columnsFrom_eq (i : Fin n) :
    columnsFrom i = (i :: rowsBelow i).map Fin.castSucc ++ [Fin.last n] := by
  rw [columnsFrom, List.finRange_succ_last, List.filter_append, List.filter_map,
    ← filter_le_finRange]
  simp [Function.comp_def, Fin.le_last]

theorem reduceRow_memory (pivot : Scaled) (S : Stage n) :
    reduceRow f i pivot (memory S) k =
      ((S.reduceRow i pivot k).result f.arithmetic).map memory := by
  rw [reduceRow, Stage.reduceRow, entry_memory, ok_bind, apply_eq, result_bind, result_consult,
    bind_map]
  refine congrArg _ (funext fun factor => ?_)
  have hloop := foldlM_view (l := i :: rowsBelow i)
    (fun S j _ => reduceEntry_memory f (i := i) (k := k) factor S j)
    { S with lower := S.lower.setEntry k i factor }
  rw [columnsFrom_eq, List.foldlM_append, result_bind, result_foldlM, bind_map, List.foldlM_map,
    setEntry_val, ok_bind, span_val]
  refine (congrArg (· >>= reduceRhs f i k factor) hloop).trans ?_
  rw [map_bind]
  refine congrArg _ (funext fun S' => ?_)
  simp only [reduceRhs_memory, List.foldlM_cons, List.foldlM_nil, bind_pure]

theorem step_memory (hn : n < pow2 64) (S : Stage n) (i : Fin n) :
    step f (memory S) i = ((S.step i).result f.arithmetic).map memory := by
  have hsize : Word.size (i.val + 1) = .ok (i.val + 1) := if_pos (by omega)
  have hscan : ((rowsBelow i).map Fin.val).foldlM (compare i) (memory S) =
      .ok (memory (S.scan i)) := by
    rw [foldlM_view (f := fun S k => pure (S.compare i k)), List.foldlM_pure]
    · rfl
    · intro S k hk
      exact compare_memory (mem_rowsBelow.mp hk).ne S
  rw [step, hsize, ok_bind, span_succ, hscan, ok_bind, entry_memory, ok_bind, ok_bind, span_succ,
    Stage.step, Stage.reduce, result_foldlM]
  exact foldlM_view (fun S k _ => reduceRow_memory f _ S) _

/-- The identity matrix, entered one by one. -/
theorem identity_eq (n : Nat) : identity f n = .ok (.identity n f.one .zero) := by
  -- after the rows of a list the ones stand in these rows
  have hrows : ∀ rows : List (Fin n), ∀ m : Grid n n, ∃ m',
      (rows.map Fin.val).foldlM (fun m i => do setEntry m i i (← one f)) m = .ok m' ∧
        ∀ l j, m'.entry l j = if l = j ∧ l ∈ rows then f.one else m.entry l j := by
    intro rows
    induction rows with
    | nil => exact fun m => ⟨m, rfl, fun l j => by simp⟩
    | cons i rows ih =>
      intro m
      obtain ⟨m', hm', hentry⟩ := ih (m.setEntry i i f.one)
      refine ⟨m', ?_, fun l j => ?_⟩
      · rw [List.map_cons, List.foldlM_cons, one_eq, ok_bind, setEntry_val, ok_bind, ← hm', one_eq]
      · simp only [hentry, Grid.entry_setEntry, List.mem_cons]
        grind
  obtain ⟨m, hm, hentry⟩ := hrows (List.finRange n) (.ofEntries fun _ _ => .zero)
  rw [identity, span_zero, hm]
  refine congrArg Except.ok (Grid.ext_entry fun l j => ?_)
  rw [hentry, Grid.identity, Grid.entry_ofEntries, Grid.entry_ofEntries]
  simp

/-- The last step has no row below it, and nothing to do. -/
theorem eliminate_eq_foldlM {rows : Nat} (one zero : Scaled) (a : Augmented (rows + 1)) :
    a.eliminate one zero =
      ((List.finRange rows).map Fin.castSucc).foldlM Stage.step (.start one zero a) := by
  have hbelow : rowsBelow (Fin.last rows) = [] :=
    List.eq_nil_iff_forall_not_mem.mpr fun k hk => (Fin.le_last k).not_gt (mem_rowsBelow.mp hk)
  have hlast : ∀ S : Stage (rows + 1), S.step (Fin.last rows) = pure S := by
    intro S
    rw [Stage.step, Stage.scan, Stage.reduce, hbelow]
    rfl
  rw [Augmented.eliminate, List.finRange_succ_last, List.foldlM_append]
  simp only [List.foldlM_cons, List.foldlM_nil, hlast, bind_pure]

/-- **The elimination never leaves its tables.** -/
theorem eliminate_eq (hpos : 0 < n) (hn : n < pow2 64) (m : Grid n n) (b : Column n) :
    eliminate f m b =
      (((Augmented.join m b).eliminate f.arithmetic.one f.arithmetic.zero).result
        f.arithmetic).map memory := by
  obtain ⟨rows, rfl⟩ : ∃ rows, n = rows + 1 := ⟨n - 1, by omega⟩
  have hstart : memory (.start f.one .zero (.join m b)) =
      ⟨m, b, .identity (rows + 1) f.one .zero, []⟩ := by
    rw [memory, Stage.start, Augmented.matrix_join, Augmented.rhs_join]
  have hspan : span 0 rows = ((List.finRange rows).map Fin.castSucc).map Fin.val := by
    rw [span_zero, List.map_map]
    rfl
  rw [eliminate, if_neg hpos.ne', identity_eq, ok_bind, less, if_pos hpos.nat_succ_le, ok_bind,
    Nat.add_sub_cancel, hspan, ← hstart, foldlM_view fun S i _ => step_memory f hn S i,
    eliminate_eq_foldlM, result_foldlM]
  rfl

end Elimination

end Guarded

end ScaledGauss

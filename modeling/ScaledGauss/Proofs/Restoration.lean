import ScaledGauss.Proofs.Elimination
import ScaledGauss.Proofs.Rounding

/-!
# An elimination run backwards

An elimination loses nothing. Its multipliers and its record of exchanges are enough to
take every step back, the last one first: the products that were subtracted from a row
are computed again and added, modulo `2 ^ 32`, and then the exchanges of the step are
made once more, in reverse order. The system left at the end turns back into the system
at the start, bit for bit (`ScaledGauss.Augmented.restore_eliminated`), and this does
not need any of the products to be exact or any of the differences to be in range.

Two things have to be arranged for that.

– **A product can be computed again.** When step `i` is taken back, row `i` holds what
  it held while the rows below were reduced, and the multiplier of row `k` still stands
  in row `k` of column `i`, although later steps have moved rows: a later step writes
  neither that row nor that column.
– **A difference can be undone.** Reducing modulo `2 ^ 32` and refusing both allow it,
  clamping does not; so clamping formats are left out.

The invariant (`ScaledGauss.Stage.Restorable`) is stated for every table of multipliers
and every record that agree with the present ones on the finished steps, because the
table and the record that the replay will use are those of the end of the run.
-/

namespace ScaledGauss

open Plan

/-! ### The replay -/

namespace Augmented

variable {n : Nat}

/-- The entry of row `k` in column `j`, with the multiple of the pivot row's added back. -/
def raiseEntry (f : Format) (lower : Grid n n) (i k : Fin n) (a : Augmented n)
    (j : Fin (n + 1)) : Except Error (Augmented n) := do
  let product ← f.multiply (lower.entry k i) (a.entry i j)
  return a.setEntry k j (.wrap ((a.entry k j).val + product.val))

/-- Row `k` raised in every column from the `i`-th on. -/
def raiseRow (f : Format) (lower : Grid n n) (i : Fin n) (a : Augmented n) (k : Fin n) :
    Except Error (Augmented n) :=
  (columnsFrom i).foldlM (raiseEntry f lower i k) a

/-- **The reduction of step `i` taken back**: all rows below row `i` are raised. -/
def raise (f : Format) (lower : Grid n n) (i : Fin n) (a : Augmented n) :
    Except Error (Augmented n) :=
  (rowsBelow i).foldlM (raiseRow f lower i) a

/-- An exchange on record, made once more. -/
def exchangeAgain (a : Augmented n) (s : Swap) : Augmented n :=
  if h : s.Within n then a.swapFrom ⟨s.step, h.step_lt⟩ ⟨s.row, h.row_lt⟩ s.step else a

/-- **The scan of a step taken back**: its exchanges are made once more, the last one
first. -/
def unscan (swaps : List Swap) (step : Nat) (a : Augmented n) : Augmented n :=
  (swaps.filter (·.step = step)).reverse.foldl exchangeAgain a

/-- Step `i` taken back. -/
def unstep (f : Format) (lower : Grid n n) (swaps : List Swap) (a : Augmented n) (i : Fin n) :
    Except Error (Augmented n) := do
  let raised ← a.raise f lower i
  return raised.unscan swaps i

/-- **The elimination taken back**, the last step first. At the last row there is nothing
to take back. -/
def restore (f : Format) (lower : Grid n n) (swaps : List Swap) (a : Augmented n) :
    Except Error (Augmented n) :=
  (List.finRange n).reverse.foldlM (unstep f lower swaps) a

end Augmented

/-! ### Differences -/

/-- Adding modulo `2 ^ 32` only asks for the first summand modulo `2 ^ 32`. -/
theorem Scaled.wrap_val_wrap_add (z w : Int) : wrap ((wrap z).val + w) = wrap (z + w) := by
  ext
  simp only [val_wrap]
  exact Int.bmod_add_bmod

/-- **A difference can be undone** modulo `2 ^ 32`, unless it was clamped. -/
theorem Format.wrap_add_of_subtract {f : Format} (hf : f.overflow ≠ .saturating)
    {a p d : Scaled} (h : f.arithmetic.apply .subtract a p = .ok d) :
    Scaled.wrap (d.val + p.val) = a := by
  have hd : d = .wrap (a.val - p.val) := by
    rw [apply_eq_narrow, if_neg (by simp)] at h
    cases ho : f.overflow with
    | wrapping =>
      rw [narrow, ho] at h
      exact (Except.ok.inj h).symm
    | saturating => exact absurd ho hf
    | checked =>
      rw [narrow_checked ho] at h
      split at h
      · exact (Except.ok.inj h).symm
      · cases h
  rw [hd, Scaled.wrap_val_wrap_add, sub_add_cancel, Scaled.wrap_val]

namespace Augmented

variable {n : Nat} {f : Format} {lower : Grid n n} {i : Fin n} {a target : Augmented n}

/-! ### Taking a reduction back -/

/-- An entry from which a product was subtracted: computing the product again and adding
it gives the entry of the target. -/
def Raisable (f : Format) (lower : Grid n n) (i : Fin n) (target a : Augmented n) (k : Fin n)
    (j : Fin (n + 1)) : Prop :=
  ∃ product, f.multiply (lower.entry k i) (a.entry i j) = .ok product ∧
    Scaled.wrap ((a.entry k j).val + product.val) = target.entry k j

/-- Raising a row along columns sets them to the target's. -/
theorem foldlM_raiseEntry {k : Fin n} (hik : i ≠ k) {cols : List (Fin (n + 1))}
    (hcols : cols.Nodup) (h : ∀ j ∈ cols, Raisable f lower i target a k j) :
    ∃ a', cols.foldlM (raiseEntry f lower i k) a = .ok a' ∧
      ∀ l j, a'.entry l j = if l = k ∧ j ∈ cols then target.entry l j else a.entry l j := by
  induction cols generalizing a with
  | nil => exact ⟨a, rfl, by simp⟩
  | cons j cols ih =>
    obtain ⟨hj, hcols⟩ := List.nodup_cons.mp hcols
    obtain ⟨product, hp, hw⟩ := h j List.mem_cons_self
    have hstep : raiseEntry f lower i k a j = .ok (a.setEntry k j (target.entry k j)) := by
      rw [raiseEntry, hp, ok_bind, hw]
      rfl
    -- the columns to come are as raisable as before: neither they nor row `i` were written
    obtain ⟨a', ha', hentry⟩ := ih (a := a.setEntry k j (target.entry k j)) hcols (by
      intro j' hj'
      obtain ⟨product', hp', hw'⟩ := h j' (List.mem_cons_of_mem j hj')
      have hne : j ≠ j' := fun hc => hj (hc ▸ hj')
      refine ⟨product', ?_, ?_⟩
      · rw [Grid.entry_setEntry, if_neg fun hc => hik hc.1.symm]
        exact hp'
      · rw [Grid.entry_setEntry, if_neg fun hc => hne hc.2]
        exact hw')
    refine ⟨a', ?_, fun l j' => ?_⟩
    · rw [List.foldlM_cons, hstep, ok_bind, ha']
    · rw [hentry, Grid.entry_setEntry]
      by_cases hlk : l = k
      · subst hlk
        by_cases hjj : j = j'
        · subst hjj
          simp [hj]
        · simp [hjj, Ne.symm hjj]
      · simp [hlk, Ne.symm hlk]

/-- Raising the rows of a list sets them to the target's. -/
theorem foldlM_raiseRow {rows : List (Fin n)} (hrows : rows.Nodup) (hi : i ∉ rows)
    (h : ∀ k ∈ rows, ∀ j, i.castSucc ≤ j → Raisable f lower i target a k j) :
    ∃ a', rows.foldlM (raiseRow f lower i) a = .ok a' ∧
      ∀ l j, a'.entry l j =
        if l ∈ rows ∧ i.castSucc ≤ j then target.entry l j else a.entry l j := by
  induction rows generalizing a with
  | nil => exact ⟨a, rfl, by simp⟩
  | cons k rows ih =>
    obtain ⟨hk, hrows⟩ := List.nodup_cons.mp hrows
    obtain ⟨hik, hi⟩ : i ≠ k ∧ i ∉ rows := by simpa using hi
    obtain ⟨b, hb, hentry⟩ := foldlM_raiseEntry hik (nodup_columnsFrom i)
      fun j hj => h k List.mem_cons_self j (mem_columnsFrom.mp hj)
    obtain ⟨a', ha', hentry'⟩ := ih (a := b) hrows hi (by
      intro l hl j hj
      have hlk : l ≠ k := fun hc => hk (hc ▸ hl)
      have hib : b.entry i j = a.entry i j := by rw [hentry, if_neg fun hc => hik hc.1]
      have hlb : b.entry l j = a.entry l j := by rw [hentry, if_neg fun hc => hlk hc.1]
      rw [Raisable, hib, hlb]
      exact h l (List.mem_cons_of_mem k hl) j hj)
    refine ⟨a', ?_, fun l j => ?_⟩
    · rw [List.foldlM_cons, raiseRow, hb, ok_bind, ha']
    · rw [hentry', hentry]
      by_cases hlk : l = k
      · subst hlk
        simp [hk]
      · simp [hlk]

/-- **A reduction is taken back** by raising the rows below the pivot. -/
theorem raise_of_reduced {S S' : Stage n} {pivot : Scaled} (hf : f.overflow ≠ .saturating)
    (h : S.Reduced f.arithmetic.Answers i pivot (rowsBelow i) S')
    (hlower : ∀ k, lower.entry k i = S'.lower.entry k i) :
    S'.system.raise f lower i = .ok S.system := by
  have hraise : ∀ k ∈ rowsBelow i, ∀ j, i.castSucc ≤ j →
      Raisable f lower i S.system S'.system k j := by
    intro k hk j hj
    obtain ⟨product, hp, hd⟩ := h.entry k hk j hj
    refine ⟨product, ?_, Format.wrap_add_of_subtract hf hd⟩
    rw [hlower, h.entry_of_le le_rfl]
    exact hp
  obtain ⟨a', ha', hentry⟩ := foldlM_raiseRow (nodup_rowsBelow i) (by simp) hraise
  refine ha'.trans (congrArg Except.ok (Grid.ext_entry fun k j => ?_))
  rw [hentry]
  split
  · rfl
  · next hkj => exact h.system_frame k j hkj

/-! ### Taking a scan back -/

/-- The exchanges of a step that has none. -/
theorem unscan_of_filter_eq_nil {swaps : List Swap} {step : Nat}
    (h : swaps.filter (·.step = step) = []) (a : Augmented n) : a.unscan swaps step = a := by
  rw [unscan, h]
  rfl

/-- **An exchange is taken back** before those recorded earlier. -/
theorem unscan_exchange (S : Stage n) (i k : Fin n) :
    (S.exchange i k).system.unscan (S.exchange i k).swaps i = S.system.unscan S.swaps i := by
  have hback : exchangeAgain (S.system.swapFrom i k i) ⟨i, k⟩ = S.system := by
    rw [exchangeAgain, dif_pos ⟨i.isLt, k.isLt⟩]
    exact Grid.swapFrom_swapFrom _ _ _ _
  simp only [unscan, Stage.swaps_exchange, List.filter_append, List.filter_cons, decide_true,
    if_true, List.filter_nil, List.reverse_append, List.reverse_cons, List.reverse_nil,
    List.nil_append, List.singleton_append, List.foldl_cons]
  exact congrArg (List.foldl exchangeAgain · _) hback

end Augmented

/-! ### The invariant -/

namespace Stage

variable {n : Nat} {f : Format} {a : Augmented n} {i : Fin n} {S S' : Stage n}

/-- **What has been done can be taken back**: the scan of the step at hand, and then the
finished steps from the last to the first, with any multipliers and any record that agree
with the present ones on the finished steps. -/
structure Restorable (f : Format) (a : Augmented n) (finished : Nat) (S : Stage n) : Prop where
  /-- No exchange is recorded for a step to come. -/
  recorded : S.Recorded finished
  /-- The replay of the finished steps ends in the system at the start. -/
  replay : ∀ (lower : Grid n n) (swaps : List Swap),
    (∀ k i : Fin n, i.val < finished → lower.entry k i = S.lower.entry k i) →
    (∀ t < finished, swaps.filter (·.step = t) = S.swaps.filter (·.step = t)) →
    ((List.finRange n).take finished).reverse.foldlM (Augmented.unstep f lower swaps)
      (S.system.unscan S.swaps finished) = .ok a

theorem restorable_start (one zero : Scaled) (a : Augmented n) :
    Restorable f a 0 (.start one zero a) :=
  ⟨recorded_start one zero a, fun _ _ _ _ => rfl⟩

theorem Restorable.exchange (h : Restorable f a i S) {k : Fin n} (hik : i < k) :
    Restorable f a i (S.exchange i k) := by
  refine ⟨h.recorded.exchange hik, fun lower swaps hlower hswaps => ?_⟩
  rw [Augmented.unscan_exchange]
  exact h.replay lower swaps hlower fun t ht =>
    (hswaps t ht).trans (S.filter_swaps_exchange i k ht.ne)

theorem Restorable.reduce (hf : f.overflow ≠ .saturating) (h : Restorable f a i S)
    {pivot : Scaled} (hr : S.Reduced f.arithmetic.Answers i pivot (rowsBelow i) S') :
    Restorable f a (i.val + 1) S' := by
  have hrec : S'.Recorded i := hr.recorded h.recorded
  refine ⟨hrec.mono (Nat.le_succ _), fun lower swaps hlower hswaps => ?_⟩
  have hscan : S'.system.unscan S'.swaps (i.val + 1) = S'.system :=
    Augmented.unscan_of_filter_eq_nil (hrec.filter_eq_nil (.inl (Nat.lt_succ_self _))) _
  -- column `i` of the multipliers is the one that the reduction has entered
  have hraise := Augmented.raise_of_reduced hf hr fun k => hlower k i (Nat.lt_succ_self _)
  have hunscan : S.system.unscan swaps i = S.system.unscan S.swaps i := by
    rw [Augmented.unscan, hswaps i (Nat.lt_succ_self _), hr.swaps]
    rfl
  rw [hscan, take_finRange_succ, List.reverse_append, List.reverse_singleton,
    List.singleton_append, List.foldlM_cons, Augmented.unstep, hraise, ok_bind, pure_bind, hunscan]
  refine h.replay lower swaps (fun k j hj => ?_) (fun t ht => ?_)
  · rw [hlower k j (Nat.lt_succ_of_lt hj), hr.lower_of_ne k fun hc => hj.ne (congrArg Fin.val hc)]
  · rw [hswaps t (Nat.lt_succ_of_lt ht), hr.swaps]

end Stage

/-- **Elimination loses no information.** Under a format that wraps around or checks, the
matrix and the right-hand side at the start are got back, bit for bit, from those at the
end with the multipliers and the record of exchanges, whatever was rounded or reduced
modulo `2 ^ 32` on the way. -/
theorem Augmented.restore_eliminated {n : Nat} (f : Format) (hf : f.overflow ≠ .saturating)
    (m : Grid n n) (b : Column n) (S : Stage n)
    (h : ((LinearSystem.ofAugmented (.join m b)).eliminate f.arithmetic.one
      f.arithmetic.zero).eval f.arithmetic = .ok S) :
    (Augmented.join S.upper S.rhs).restore f S.lower S.swaps = .ok (.join m b) := by
  obtain ⟨-, hy⟩ := LinearSystem.yields_eliminate_iff.mp (eval_eq_ok_iff.mp h)
  have hinv : S.Restorable f (.join m b) n := hy.eliminate_induction
    (fun i T k hik _ hT => hT.exchange hik) (fun i T T' hT hr => hT.reduce hf hr)
    (Stage.restorable_start _ _ _)
  have hscan : S.system.unscan S.swaps n = S.system :=
    Augmented.unscan_of_filter_eq_nil (hinv.recorded.filter_eq_nil (.inr le_rfl)) _
  have htake : (List.finRange n).take n = List.finRange n := List.take_of_length_le (by simp)
  have hreplay := hinv.replay S.lower S.swaps (fun _ _ _ => rfl) (fun _ _ => rfl)
  rw [hscan, htake] at hreplay
  rw [Stage.upper, Stage.rhs, Augmented.join_matrix_rhs]
  exact hreplay

/-- Coefficients whose elimination exchanges rows at two steps and leaves the range. -/
def roughMatrix : Grid 3 3 :=
  #v[#v[⟨1⟩, ⟨2000000000⟩, ⟨5⟩], #v[⟨2⟩, ⟨-1800000000⟩, ⟨2147483647⟩],
    #v[⟨3⟩, ⟨1900000000⟩, ⟨-9⟩]]

/-- A right-hand side to go with them. -/
def roughRhs : Column 3 := #v[⟨1⟩, ⟨2000000000⟩, ⟨-2147483648⟩]

/-- The format in which they are eliminated: two fractional bits, wrapping around. -/
def roughFormat : Format where
  fracBits := 2
  rounding := .truncate
  overflow := .wrapping

theorem Augmented.restore_rough :
    roughFormat.overflow ≠ .saturating ∧ ∃ S : Stage 3,
      ((LinearSystem.ofAugmented (.join roughMatrix roughRhs)).eliminate
        roughFormat.arithmetic.one roughFormat.arithmetic.zero).eval roughFormat.arithmetic =
          .ok S ∧
      S.swaps = [⟨0, 1⟩, ⟨0, 2⟩, ⟨1, 2⟩] ∧
      (Augmented.join S.upper S.rhs).restore roughFormat S.lower S.swaps =
        .ok (.join roughMatrix roughRhs) := by
  have hrun : (((LinearSystem.ofAugmented (.join roughMatrix roughRhs)).eliminate
      roughFormat.arithmetic.one roughFormat.arithmetic.zero).eval
        roughFormat.arithmetic).toOption.map Stage.swaps =
      some [⟨0, 1⟩, ⟨0, 2⟩, ⟨1, 2⟩] := by
    decide +kernel
  obtain ⟨S, hS, hswaps⟩ := exists_ok_of_view hrun
  exact ⟨by decide, S, hS, hswaps, restore_eliminated _ (by decide) _ _ S hS⟩

end ScaledGauss

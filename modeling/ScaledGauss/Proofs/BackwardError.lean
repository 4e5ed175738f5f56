import Mathlib.Algebra.BigOperators.Group.Finset.Basic
import Mathlib.Algebra.Order.BigOperators.Group.Finset
import ScaledGauss.Proofs.Rounding
import ScaledGauss.Proofs.RowOrder

/-!
# The backward error of an elimination

The multipliers and the triangular system of a checked elimination nearly multiply back
to the system it started from. The **defect** of an entry is what is missing, with twice
as many fractional bits: the entry at the start, less the entry at the end, less the products of the
multipliers of its row with the entries above it. Every step that reduces a row adds to
the defect the rounding of a single product, and a row that ends at position `k` is
reduced exactly `k` times. So the defect there is at most `k` roundings – all downward
under truncation, each at most half a unit under rounding to nearest
(`ScaledGauss.Stage.backward_error`).

A row reaches its position through several exchanges at each step, and its multipliers
do not move with it. The invariant (`ScaledGauss.Stage.DefectBound`) therefore reads the
start through `ScaledGauss.rowOrder` and the multipliers through
`ScaledGauss.Grid.follow`: an exchange then only renames the row whose defect is looked
at (`ScaledGauss.Stage.defect_exchange`).
-/

namespace ScaledGauss

open Plan

/-! ### How much several roundings can add up to -/

/-- **The error of a number of products**, in units of one raw unit times the scale: none
of them above the exact value and each less than a unit below it, or each at most half a
unit off. -/
def Rounding.Accumulates (r : Rounding) (scale count : Nat) (d : Int) : Prop :=
  match r with
  | .truncate => -(count * (scale - 1) : Int) ≤ d ∧ d ≤ 0
  | .nearest => 2 * |d| ≤ count * scale

namespace Rounding.Accumulates

variable {r : Rounding} {scale count : Nat} {d : Int}

theorem zero (r : Rounding) (scale : Nat) : r.Accumulates scale 0 0 := by
  cases r <;> simp [Accumulates]

/-- One more product adds one more rounding. -/
theorem add_product (hs : 0 < scale) (h : r.Accumulates scale count d) (z : Int) :
    r.Accumulates scale (count + 1) (d + (scale * r.product scale z - z)) := by
  cases r with
  | truncate =>
    obtain ⟨h1, h2⟩ := h
    obtain ⟨h3, h4⟩ := product_truncate_bounds hs z
    constructor
    · push_cast
      linarith
    · linarith
  | nearest =>
    have h1 : 2 * |z - scale * nearest.product scale z| ≤ scale := by
      have := product_nearest_bound hs z
      rw [Int.abs_eq_natAbs]
      exact_mod_cast this
    have h2 : |d + (scale * nearest.product scale z - z)| ≤
        |d| + |z - scale * nearest.product scale z| := by
      rw [← abs_neg (z - _), neg_sub]
      exact abs_add_le _ _
    have h3 : 2 * |d| ≤ count * scale := h
    change 2 * |d + (scale * nearest.product scale z - z)| ≤ (count + 1 : Nat) * scale
    push_cast
    linarith

end Rounding.Accumulates

/-- One more index below a bound. -/
theorem sum_lt_succ {n : Nat} (i : Fin n) (g : Fin n → Int) :
    (∑ l with l.val < i.val + 1, g l) = (∑ l with l.val < i.val, g l) + g i := by
  have hins : (Finset.univ.filter fun l : Fin n => l.val < i.val + 1) =
      insert i (Finset.univ.filter fun l : Fin n => l.val < i.val) := by
    ext l
    simp only [Finset.mem_filter, Finset.mem_univ, true_and, Finset.mem_insert, Fin.ext_iff]
    omega
  rw [hins, Finset.sum_insert (by simp), add_comm]

namespace Stage

variable {n : Nat} {f : Format} {a : Augmented n} {i : Fin n} {S S' : Stage n}

/-! ### The defect -/

/-- **The defect** of an entry after a number of steps: the entry that its row had at the
start, less the entry now, less the products of the row's multipliers with the entries of
the pivot rows that it was reduced by. -/
def defect (scale : Nat) (a : Augmented n) (finished : Nat) (S : Stage n) (k : Fin n)
    (j : Fin (n + 1)) : Int :=
  scale * (a.entry ((rowOrder n S.swaps).get k) j).val - scale * (S.system.entry k j).val -
    ∑ l with l.val < min k.val finished,
      ((S.lower.follow S.swaps).entry k l).val * (S.system.entry l j).val

/-- **The bound on the defects** after a number of steps: row `k` was reduced by the pivot
rows above it that are finished, and its entries count from the last of them on. -/
structure DefectBound (f : Format) (a : Augmented n) (finished : Nat) (S : Stage n) : Prop where
  /-- No exchange is recorded for a step to come. -/
  recorded : S.Recorded finished
  /-- The defect of row `k` is that of one rounding for each finished row above it. -/
  bound : ∀ (k : Fin n) (j : Fin (n + 1)), min k.val finished ≤ j.val →
    f.rounding.Accumulates (pow2 f.fracBits) (min k.val finished)
      (defect (pow2 f.fracBits) a finished S k j)

theorem defectBound_start (one zero : Scaled) (a : Augmented n) :
    DefectBound f a 0 (.start one zero a) := by
  refine ⟨recorded_start one zero a, fun k j _ => ?_⟩
  have hzero : defect (pow2 f.fracBits) a 0 (.start one zero a) k j = 0 := by
    simp [defect, start]
  rw [Nat.min_zero, hzero]
  exact .zero _ _

/-- **An exchange renames rows**: where the entry in a row is the one that the other row of the
two had, so is the defect. -/
theorem defect_exchange_of_entry (scale : Nat) (S : Stage n) {k l : Fin n} (hik : i < k)
    {j : Fin (n + 1)}
    (hentry : (S.exchange i k).system.entry l j = S.system.entry (Equiv.swap i k l) j) :
    defect scale a i (S.exchange i k) l j = defect scale a i S (Equiv.swap i k l) j := by
  have hpivot : ∀ p : Fin n, p.val < i.val →
      (S.exchange i k).system.entry p j = S.system.entry p j := by
    intro p hp
    rw [entry_exchange, Equiv.swap_apply_of_ne_of_ne (by omega) (by omega), ite_self]
  rw [defect, defect, swaps_exchange, get_rowOrder_concat, Swap.perm_mk, hentry, min_swap hik]
  refine congrArg _ (Finset.sum_congr rfl fun p hp => ?_)
  have hp' : p.val < i.val := by
    have := (Finset.mem_filter.mp hp).2
    omega
  rw [hpivot p hp', lower_exchange, Grid.entry_follow_concat, if_pos hp', Swap.perm_mk]

/-- From the column on that counts for the row, the entry is the one that the other row had. -/
theorem defect_exchange (scale : Nat) (S : Stage n) {k l : Fin n} (hik : i < k)
    {j : Fin (n + 1)} (hj : min l.val i.val ≤ j.val) :
    defect scale a i (S.exchange i k) l j = defect scale a i S (Equiv.swap i k l) j := by
  refine defect_exchange_of_entry scale S hik ?_
  rw [entry_exchange]
  split
  · next hlt =>
    -- a column before the step is looked at in the rows above it only
    have hlt' : j.val < i.val := hlt
    rw [Equiv.swap_apply_of_ne_of_ne (by omega) (by omega)]
  · rfl

theorem DefectBound.exchange (h : DefectBound f a i S) {k : Fin n} (hik : i < k) :
    DefectBound f a i (S.exchange i k) := by
  refine ⟨h.recorded.exchange hik, fun l j hj => ?_⟩
  rw [defect_exchange _ S hik hj, ← min_swap hik]
  exact h.bound _ j ((min_swap hik l).trans_le hj)

/-- A reduction leaves the defects of the finished rows as they are. -/
theorem defect_of_le {R : Law} {pivot : Scaled} (scale : Nat)
    (hr : S.Reduced R i pivot (rowsBelow i) S') {k : Fin n} (hk : k ≤ i) (j : Fin (n + 1)) :
    defect scale a (i.val + 1) S' k j = defect scale a i S k j := by
  have hmin : min k.val (i.val + 1) = min k.val i.val := by omega
  rw [defect, defect, hr.swaps, hr.entry_of_le hk, hmin]
  refine congrArg _ (Finset.sum_congr rfl fun p hp => ?_)
  have hp' : p < i := by
    have := (Finset.mem_filter.mp hp).2
    omega
  rw [hr.entry_of_le hp'.le,
    Grid.entry_follow_congr fun l => hr.lower_frame l p fun hc => hp'.ne hc.2]

/-- A reduction adds to the defect of a row below the pivot what it has taken from the entry, less
the product of the multiplier. -/
theorem defect_below {R : Law} {pivot : Scaled} (scale : Nat)
    (hr : S.Reduced R i pivot (rowsBelow i) S') (hrec : S.Recorded i)
    {k : Fin n} (hk : i < k) (j : Fin (n + 1)) :
    defect scale a (i.val + 1) S' k j = defect scale a i S k j +
      (scale * (S.system.entry k j).val - scale * (S'.system.entry k j).val -
        (S'.lower.entry k i).val * (S.system.entry i j).val) := by
  have hcol : ∀ p : Fin n, p < i →
      (S'.lower.follow S.swaps).entry k p = (S.lower.follow S.swaps).entry k p := fun p hp =>
    Grid.entry_follow_congr (fun l => hr.lower_frame l p fun hc => hp.ne hc.2) _ _
  have hmin : min k.val (i.val + 1) = i.val + 1 := by omega
  have hmin' : min k.val i.val = i.val := by omega
  have hsum : (∑ l with l.val < i.val,
      ((S'.lower.follow S.swaps).entry k l).val * (S'.system.entry l j).val) =
      ∑ l with l.val < i.val,
        ((S.lower.follow S.swaps).entry k l).val * (S.system.entry l j).val := by
    refine Finset.sum_congr rfl fun p hp => ?_
    have hp' : p < i := (Finset.mem_filter.mp hp).2
    rw [hcol p hp', hr.entry_of_le hp'.le]
  -- the multiplier of this step is where it was entered: no later step has exchanged rows yet
  rw [defect, defect, hr.swaps, hmin, hmin', sum_lt_succ, hsum, hr.entry_of_le le_rfl,
    Grid.entry_follow_of_le _ fun s hs => (hrec s hs).1]
  ring

/-- That is the rounding of one product. -/
theorem defect_of_lt {R : Law} {pivot : Scaled} (scale : Nat)
    (hr : S.Reduced R i pivot (rowsBelow i) S') (hrec : S.Recorded i)
    {k : Fin n} (hk : i < k) {j : Fin (n + 1)} {product : Scaled}
    (hd : (S'.system.entry k j).val = (S.system.entry k j).val - product.val) :
    defect scale a (i.val + 1) S' k j = defect scale a i S k j +
      (scale * product.val - (S'.lower.entry k i).val * (S.system.entry i j).val) := by
  rw [defect_below scale hr hrec hk, hd]
  ring

theorem DefectBound.reduce (hf : f.overflow = .checked) (h : DefectBound f a i S)
    {pivot : Scaled} (hr : S.Reduced f.arithmetic.Answers i pivot (rowsBelow i) S') :
    DefectBound f a (i.val + 1) S' := by
  refine ⟨(hr.recorded h.recorded).mono (Nat.le_succ _), fun k j hj => ?_⟩
  rcases le_or_gt k i with hk | hk
  · have hmin : min k.val (i.val + 1) = min k.val i.val := by omega
    rw [defect_of_le _ hr hk, hmin]
    exact h.bound k j (hmin ▸ hj)
  · have hij : i.castSucc ≤ j := by
      have : i.val ≤ j.val := by omega
      exact this
    obtain ⟨product, hp, hd⟩ := hr.entry k (mem_rowsBelow.mpr hk) j hij
    have hd' : (S'.system.entry k j).val = (S.system.entry k j).val - product.val :=
      ((Format.apply_checked_eq_ok_iff hf).mp hd).2
    have hp' : product.val = f.rounding.product (pow2 f.fracBits)
        ((S'.lower.entry k i).val * (S.system.entry i j).val) :=
      ((Format.apply_checked_eq_ok_iff hf).mp hp).2
    have hmin : min k.val (i.val + 1) = min k.val i.val + 1 := by omega
    rw [defect_of_lt _ hr h.recorded hk hd', hmin, hp']
    exact (h.bound k j (by omega)).add_product (pow2_pos _) _

/-- **The backward error of an elimination** in a checked format. With the rows in the
order of the record and the multipliers brought to their rows, the triangular system
multiplies back to the system at the start up to one rounding for each row above. The
right-hand side is one more column. -/
theorem backward_error {n : Nat} (f : Format) (hf : f.overflow = .checked) (m : Grid n n)
    (b : Column n) (S : Stage n)
    (h : ((LinearSystem.ofAugmented (.join m b)).eliminate f.arithmetic.one
      f.arithmetic.zero).eval f.arithmetic = .ok S) (k : Fin n) :
    (∀ j, k ≤ j → f.rounding.Accumulates (pow2 f.fracBits) k
      (pow2 f.fracBits * (m.entry ((rowOrder n S.swaps).get k) j).val -
        pow2 f.fracBits * (S.upper.entry k j).val -
        ∑ i with i < k,
          ((S.lower.follow S.swaps).entry k i).val * (S.upper.entry i j).val)) ∧
    f.rounding.Accumulates (pow2 f.fracBits) k
      (pow2 f.fracBits * (b.get ((rowOrder n S.swaps).get k)).val -
        pow2 f.fracBits * (S.rhs.get k).val -
        ∑ i with i < k,
          ((S.lower.follow S.swaps).entry k i).val * (S.rhs.get i).val) := by
  obtain ⟨-, hy⟩ := LinearSystem.yields_eliminate_iff.mp (eval_eq_ok_iff.mp h)
  have hinv : DefectBound f (.join m b) n S := hy.eliminate_induction
    (fun i T k hik _ hT => hT.exchange hik) (fun i T T' hT hr => hT.reduce hf hr)
    (defectBound_start _ _ _)
  have hmin : min k.val n = k.val := by omega
  have hbound := hinv.bound k
  simp only [defect, hmin] at hbound
  refine ⟨fun j hj => ?_, ?_⟩
  · have := hbound j.castSucc hj
    simpa [upper, Augmented.matrix, Augmented.join] using this
  · have := hbound (Fin.last n) k.isLt.le
    simpa [rhs, Augmented.rhs, Augmented.join, vector_get] using this

/-- Coefficients whose elimination exchanges rows that already have multipliers. -/
def skewMatrix : Grid 3 3 :=
  #v[#v[⟨300⟩, ⟨200⟩, ⟨310⟩], #v[⟨500⟩, ⟨700⟩, ⟨66⟩], #v[⟨905⟩, ⟨807⟩, ⟨503⟩]]

/-- A right-hand side to go with them. -/
def skewRhs : Column 3 := #v[⟨111⟩, ⟨222⟩, ⟨-333⟩]

/-- The format in which they are eliminated: eight fractional bits, to nearest, checked. -/
def skewFormat : Format where
  fracBits := 8
  rounding := .nearest
  overflow := .checked

theorem backward_error_skew :
    skewFormat.overflow = .checked ∧ ∃ S : Stage 3,
      ((LinearSystem.ofAugmented (.join skewMatrix skewRhs)).eliminate
        skewFormat.arithmetic.one skewFormat.arithmetic.zero).eval skewFormat.arithmetic =
          .ok S ∧
      S.swaps = [⟨0, 1⟩, ⟨0, 2⟩, ⟨1, 2⟩] ∧
      skewFormat.rounding.Accumulates (pow2 skewFormat.fracBits) 2
        (pow2 skewFormat.fracBits * (skewRhs.get ((rowOrder 3 S.swaps).get 2)).val -
          pow2 skewFormat.fracBits * (S.rhs.get 2).val -
          ∑ i : Fin 3 with i < 2,
            ((S.lower.follow S.swaps).entry 2 i).val * (S.rhs.get i).val) := by
  have hrun : (((LinearSystem.ofAugmented (.join skewMatrix skewRhs)).eliminate
      skewFormat.arithmetic.one skewFormat.arithmetic.zero).eval
        skewFormat.arithmetic).toOption.map Stage.swaps =
      some [⟨0, 1⟩, ⟨0, 2⟩, ⟨1, 2⟩] := by
    decide +kernel
  obtain ⟨S, hS, hswaps⟩ := exists_ok_of_view hrun
  have herror := backward_error (n := 3) skewFormat rfl skewMatrix skewRhs S hS 2
  exact ⟨rfl, S, hS, hswaps, herror.2⟩

end Stage

end ScaledGauss

import Mathlib.Data.List.Induction
import ScaledGauss.Proofs.Elimination

/-!
# Where the rows have gone

The record of an elimination says which rows were exchanged, step by step. Applied to
the row numbers in order it tells which row of the system at the start ended at each
position (`ScaledGauss.rowOrder`).

The multipliers need a correction of the same kind. A multiplier is entered at the
position its row had when it was reduced, and it stays there while later steps move the
row on. Applying the record to the columns finished before each exchange
(`ScaledGauss.Grid.follow`) brings every multiplier to the row it belongs to.

Both definitions are folds along the record, so all that is needed of them is what one
more exchange does, and that a table of multipliers is moved column by column.
-/

namespace ScaledGauss

variable {n : Nat}

/-! ### One exchange -/

namespace Swap

/-- The exchange of two rows as a permutation of the row numbers. -/
def perm (n : Nat) (s : Swap) : Equiv.Perm (Fin n) :=
  if h : s.Within n then Equiv.swap ⟨s.step, h.step_lt⟩ ⟨s.row, h.row_lt⟩ else .refl _

/-- The exchange made in a sequence with one place for each row. -/
def exchange {α : Type} (v : Vector α n) (s : Swap) : Vector α n :=
  if h : s.Within n then v.swap s.step s.row h.step_lt h.row_lt else v

/-- The exchange made in the columns before its step. -/
def exchangeBefore (g : Grid n n) (s : Swap) : Grid n n :=
  .ofEntries fun k i => if i.val < s.step then g.entry (s.perm n k) i else g.entry k i

@[simp] theorem perm_mk (i k : Fin n) : perm n ⟨i, k⟩ = Equiv.swap i k :=
  dif_pos ⟨i.isLt, k.isLt⟩

/-- Rows above the two stay where they are. -/
theorem perm_of_lt {s : Swap} {k : Fin n} (hstep : k.val < s.step) (hrow : k.val < s.row) :
    s.perm n k = k := by
  unfold perm
  split
  · exact Equiv.swap_apply_of_ne_of_ne (Fin.ne_of_lt hstep) (Fin.ne_of_lt hrow)
  · rfl

theorem get_exchange {α : Type} (v : Vector α n) (s : Swap) (k : Fin n) :
    (exchange v s).get k = v.get (s.perm n k) := by
  unfold exchange perm
  split
  · simp only [vector_get, Vector.getElem_swap, Equiv.swap_apply_def, Fin.ext_iff]
    split_ifs <;> rfl
  · rfl

theorem entry_exchangeBefore (g : Grid n n) (s : Swap) (k i : Fin n) :
    (exchangeBefore g s).entry k i =
      if i.val < s.step then g.entry (s.perm n k) i else g.entry k i :=
  Grid.entry_ofEntries _ _ _

end Swap

/-! ### A whole record -/

/-- **The row order of a record**: at each position the number of the row that ended
there, found by making the exchanges in order among `0, …, n - 1`. -/
def rowOrder (n : Nat) (swaps : List Swap) : Vector (Fin n) n :=
  swaps.foldl Swap.exchange (.ofFn id)

/-- **Multipliers brought to their rows**: for each exchange in order, its two rows are
exchanged in the columns before its step. -/
def Grid.follow (lower : Grid n n) (swaps : List Swap) : Grid n n :=
  swaps.foldl Swap.exchangeBefore lower

@[simp] theorem get_rowOrder_nil (k : Fin n) : (rowOrder n []).get k = k := by
  simp [rowOrder, vector_get]

theorem get_rowOrder_concat (swaps : List Swap) (s : Swap) (k : Fin n) :
    (rowOrder n (swaps ++ [s])).get k = (rowOrder n swaps).get (s.perm n k) := by
  rw [rowOrder, List.foldl_append]
  exact Swap.get_exchange _ s k

namespace Grid

theorem entry_follow_concat (lower : Grid n n) (swaps : List Swap) (s : Swap) (k i : Fin n) :
    (lower.follow (swaps ++ [s])).entry k i =
      if i.val < s.step then (lower.follow swaps).entry (s.perm n k) i
      else (lower.follow swaps).entry k i := by
  rw [follow, List.foldl_append]
  exact Swap.entry_exchangeBefore _ s k i

/-- A column of the moved table depends on that column only. -/
theorem entry_follow_congr {lower lower' : Grid n n} {i : Fin n}
    (h : ∀ k, lower.entry k i = lower'.entry k i) (swaps : List Swap) (k : Fin n) :
    (lower.follow swaps).entry k i = (lower'.follow swaps).entry k i := by
  induction swaps using List.reverseRecOn generalizing k with
  | nil => exact h k
  | append_singleton swaps s ih => rw [entry_follow_concat, entry_follow_concat, ih, ih]

/-- A column stays where it is as long as no later step exchanges rows. -/
theorem entry_follow_of_le (lower : Grid n n) {swaps : List Swap} {i : Fin n}
    (h : ∀ s ∈ swaps, s.step ≤ i) (k : Fin n) :
    (lower.follow swaps).entry k i = lower.entry k i := by
  induction swaps using List.reverseRecOn with
  | nil => rfl
  | append_singleton swaps s ih =>
    have hs : s.step ≤ i := h s (by simp)
    rw [entry_follow_concat, if_neg (by omega)]
    exact ih fun s' hs' => h s' (by simp [hs'])

/-- On the diagonal and above it nothing is moved: an exchange that reaches a column is one of
rows further down. -/
theorem entry_follow_of_row_le (lower : Grid n n) {swaps : List Swap}
    (h : ∀ s ∈ swaps, s.step < s.row) {k i : Fin n} (hk : k ≤ i) :
    (lower.follow swaps).entry k i = lower.entry k i := by
  induction swaps using List.reverseRecOn with
  | nil => rfl
  | append_singleton swaps s ih =>
    have hs : s.step < s.row := h s (by simp)
    have hswaps := ih fun s' hs' => h s' (by simp [hs'])
    rw [entry_follow_concat]
    split
    · next hi =>
      rw [Swap.perm_of_lt (by omega) (by omega)]
      exact hswaps
    · exact hswaps

end Grid

end ScaledGauss

import ScaledGauss.LinearSystem
import ScaledGauss.Proofs.Elimination
import ScaledGauss.Proofs.Guarded.Program
import ScaledGauss.Proofs.Solve
import ScaledGauss.Proofs.Substitution

/-!
# Exchanging whole rows

An exchange at step `i` begins at column `i`: what stands before is the residue of earlier
steps, and it is left in its row. This file compares the elimination with the one that exchanges
**whole rows** (`ScaledGauss.Augmented.eliminateWhole`). The two leave different matrices, and
yet they cannot be told apart by anyone who reads the upper triangle.

The difference is confined to **dead entries**. At step `i` two states agree
(`ScaledGauss.Stage.Agrees`) if they have the same entry wherever the column is at least the
row or at least `i`; the others are not read again, neither by the scan and the reduction, which
start at column `i`, nor by back substitution, which starts at the diagonal. An exchange keeps
the agreement, although it moves the dead entries in one of the states only, and a reduction
keeps it because it writes the same values in both.

Runs that fail are compared too. For that two plans are run **alongside**
(`ScaledGauss.Plan.Alongside`): they make the same calls with the same operands, holding states
that are related, whatever the answers are.

## Main definitions

– `ScaledGauss.Plan.Alongside`, `ScaledGauss.Plan.Trace.Alike`: plans and runs side by side;
– `ScaledGauss.Augmented.eliminateWhole`, `ScaledGauss.Augmented.solveWhole`,
  `ScaledGauss.Config.solveBy`: the procedures with whole rows exchanged;
– `ScaledGauss.Stage.SameAbove`, `ScaledGauss.Remains.SameAbove`: what is the same in both.

## Main results

– `ScaledGauss.Stage.Agrees.exchange`, `ScaledGauss.Stage.Agrees.alongside_step`,
  `ScaledGauss.Augmented.alongside_eliminate`: one exchange, one step, the elimination;
– `ScaledGauss.LinearSystem.whole_rows_alike`: the procedures compared.
-/

namespace ScaledGauss

/-! ### Plans side by side -/

namespace Plan

variable {σ τ σ' τ' α β γ δ ι : Type} {rel : σ → τ → Prop} {res : α → β → Prop}

/-- **Plans side by side**: the same calls with the same operands, whatever the answers are, with
related states held, and related results in the end. -/
inductive Alongside (rel : σ → τ → Prop) (res : α → β → Prop) : Plan σ α → Plan τ β → Prop
  /-- Two results that are related. -/
  | done {a : α} {b : β} : res a b → Alongside rel res (.done a) (.done b)
  /-- The same failure. -/
  | stop {s : σ} {t : τ} {cause : Error} : rel s t →
      Alongside rel res (.stop s cause) (.stop t cause)
  /-- The same call. -/
  | call {s : σ} {t : τ} {op : Op} {left right : Scaled} {f : Scaled → Plan σ α}
      {g : Scaled → Plan τ β} : rel s t → (∀ answer, Alongside rel res (f answer) (g answer)) →
      Alongside rel res (.call s op left right f) (.call t op left right g)

namespace Alongside

variable {p : Plan σ α} {q : Plan τ β}

theorem consult {s : σ} {t : τ} (h : rel s t) (op : Op) (left right : Scaled) :
    Alongside rel Eq (consult s op left right) (consult t op left right) :=
  .call h fun _ => .done rfl

theorem bind {res' : γ → δ → Prop} {f : α → Plan σ γ} {g : β → Plan τ δ}
    (h : p.Alongside rel res q) (hfg : ∀ a b, res a b → (f a).Alongside rel res' (g b)) :
    (p >>= f).Alongside rel res' (q >>= g) := by
  change (p.bind f).Alongside rel res' (q.bind g)
  induction h with
  | done hab => exact hfg _ _ hab
  | stop hst => exact .stop hst
  | call hst _ ih => exact .call hst ih

/-- Sweeps along one list go side by side if their steps do. -/
theorem foldlM {f : α → ι → Plan σ α} {g : β → ι → Plan τ β} {l : List ι}
    (hfg : ∀ a b, ∀ x ∈ l, res a b → (f a x).Alongside rel res (g b x)) {a : α} {b : β}
    (hab : res a b) : (l.foldlM f a).Alongside rel res (l.foldlM g b) := by
  induction l generalizing a b with
  | nil => exact .done hab
  | cons x l ih =>
    rw [List.foldlM_cons, List.foldlM_cons]
    refine (hfg a b x List.mem_cons_self hab).bind fun a' b' hab' => ih ?_ hab'
    exact fun a'' b'' x' hx' => hfg a'' b'' x' (List.mem_cons_of_mem x hx')

/-- Other views of the states held. -/
theorem mapHeld {rel' : σ' → τ' → Prop} {f : σ → σ'} {g : τ → τ'} (h : p.Alongside rel res q)
    (hfg : ∀ s t, rel s t → rel' (f s) (g t)) :
    (p.mapHeld f).Alongside rel' res (q.mapHeld g) := by
  induction h with
  | done hab => exact .done hab
  | stop hst => exact .stop (hfg _ _ hst)
  | call hst _ ih => exact .call (hfg _ _ hst) ih

/-- A plan goes alongside itself. -/
theorem refl (p : Plan σ α) : p.Alongside Eq Eq p := by
  induction p with
  | done a => exact .done rfl
  | stop held cause => exact .stop rfl
  | call held op left right next ih => exact .call rfl ih

end Alongside

/-- **Runs side by side**: the same calls, and then related results, or the same error with
related states left behind. -/
inductive Trace.Alike (rel : σ → τ → Prop) (res : α → β → Prop) : Trace σ α → Trace τ β → Prop
  /-- Both end in a result. -/
  | finished {calls : List Call} {a : α} {b : β} : res a b →
      Alike rel res ⟨calls, .ok a⟩ ⟨calls, .ok b⟩
  /-- Both end early. -/
  | failed {calls : List Call} {cause : Error} {s : σ} {t : τ} : rel s t →
      Alike rel res ⟨calls, .error ⟨cause, s⟩⟩ ⟨calls, .error ⟨cause, t⟩⟩

theorem Trace.Alike.imp {res' : α → β → Prop} {o : Trace σ α} {o' : Trace τ β}
    (h : o.Alike rel res o') (himp : ∀ a b, res a b → res' a b) : o.Alike rel res' o' := by
  cases h with
  | finished hab => exact .finished (himp _ _ hab)
  | failed hst => exact .failed hst

/-- **Plans side by side have runs side by side.** -/
theorem Alongside.alike_run {p : Plan σ α} {q : Plan τ β} (h : p.Alongside rel res q)
    (answers : Nat → Op → Scaled → Scaled → Except Error Scaled) (i : Nat) :
    (p.run answers i).Alike rel res (q.run answers i) := by
  induction h generalizing i with
  | done hab => exact .finished hab
  | stop hst => exact .failed hst
  | @call s t op left right f g hst _ ih =>
    rw [run, run]
    cases answers i op left right with
    | error cause => exact .failed hst
    | ok answer =>
      dsimp only
      have hrest := ih answer (i + 1)
      generalize (f answer).run answers (i + 1) = rest at hrest
      generalize (g answer).run answers (i + 1) = rest' at hrest
      cases hrest with
      | finished hab => exact .finished hab
      | failed hst' => exact .failed hst'

end Plan

open Plan

/-! ### The procedures with whole rows exchanged -/

namespace Stage

variable {n : Nat}

/-- Rows `i` and `k` exchanged in all columns, on record and reported. -/
def exchangeWhole (S : Stage n) (i k : Fin n) : Stage n :=
  { S.exchange i k with system := S.system.swapFrom i k 0 }

/-- One comparison of the scan at step `i`, whole rows being exchanged. -/
def compareWhole (i : Fin n) (S : Stage n) (k : Fin n) : Stage n :=
  if S.coefficient i i < S.coefficient k i then S.exchangeWhole i k else S

/-- The scan of step `i`, whole rows being exchanged. -/
def scanWhole (S : Stage n) (i : Fin n) : Stage n := (rowsBelow i).foldl (compareWhole i) S

/-- Step `i`, whole rows being exchanged. -/
def stepWhole (S : Stage n) (i : Fin n) : Plan (Stage n) (Stage n) := (S.scanWhole i).reduce i

end Stage

namespace Augmented

variable {n : Nat}

/-- **The elimination that exchanges whole rows.** -/
def eliminateWhole (one zero : Scaled) (a : Augmented n) : Plan (Stage n) (Stage n) :=
  (List.finRange n).foldlM Stage.stepWhole (.start one zero a)

/-- The solution of a system, whole rows being exchanged. -/
def solveWhole (one zero : Scaled) (a : Augmented n) : Plan (Stage n) (Stage n × Column n) := do
  let S ← a.eliminateWhole one zero
  let x ← S.system.backSubstitute S zero
  return (S, x)

end Augmented

namespace LinearSystem

/-- Elimination that exchanges whole rows, after the check of the shape. -/
def eliminateWhole (one zero : Scaled) (s : LinearSystem) : Plan Remains (Stage s.rows) :=
  s.afterCheck (·.eliminateWhole one zero)

/-- The same, and back substitution. -/
def solveWhole (one zero : Scaled) (s : LinearSystem) :
    Plan Remains (Stage s.rows × Column s.rows) :=
  s.afterCheck (·.solveWhole one zero)

end LinearSystem

namespace Config

/-- Elimination in the configured format, whole rows being exchanged. -/
def eliminateWhole (c : Config) (a : Augmented c.dimension) : Logged (Stage c.dimension) :=
  let A := c.format.arithmetic
  match (a.eliminateWhole A.one A.zero).eval A with
  | .ok S => ⟨S.log, .ok S⟩
  | .error stopped => ⟨stopped.held.log, .error stopped.cause⟩

/-- What a solve does after the elimination. -/
def finish (c : Config) (S : Stage c.dimension) : Logged Report := do
  if 0 < c.verbosity then
    .tell (S.swaps.map fun swap => .swapped swap.step swap.row)
  let x ← .quiet (c.backSubstitute S.system)
  let residual ← .quiet (S.upper.upperResidual x.toList S.rhs.toList c.format.fracBits)
  .tell [.solved x.toList residual]
  return {
    n := c.dimension
    upper := S.upper
    rhs := S.rhs
    lower := S.lower
    swaps := S.swaps
    solution := x
    residual := residual }

/-- **The solve by a given elimination.** -/
def solveBy (c : Config) (elimination : Augmented c.dimension → Logged (Stage c.dimension))
    (matrix rhs : Array Scaled) : Logged Report := do
  let a ← .quiet (c.assemble matrix rhs)
  .tell [.solving c.dimension c.format.fracBits]
  let S ← elimination a
  c.finish S

/-- The solve is by the elimination that exchanges from the current column. -/
theorem solve_eq_solveBy (c : Config) (matrix rhs : Array Scaled) :
    c.solve matrix rhs = c.solveBy c.eliminate matrix rhs := rfl

end Config

/-- What a report says about the run: its exchanges, its solution and its residual. -/
def Report.answer (r : Report) : List Swap × List Scaled × Nat :=
  (r.swaps, r.solution.toList, r.residual)

/-! ### What is the same -/

/-- **The same events**, and the same error or results that look the same. -/
structure Logged.Alike {α β : Type} (view : α → β) (x y : Logged α) : Prop where
  /-- The same events. -/
  log : y.log = x.log
  /-- The same error, or the same view of the results. -/
  outcome : y.outcome.map view = x.outcome.map view

theorem Logged.Alike.pure {α β : Type} {view : α → β} {a b : α} {v : β} (ha : view a = v)
    (hb : view b = v) : (Pure.pure a : Logged α).Alike view (Pure.pure b) :=
  ⟨rfl, congrArg Except.ok (hb.trans ha.symm)⟩

/-- What is done first may be the same. -/
theorem Logged.Alike.bind {α β γ : Type} {view : α → β} {f g : γ → Logged α} (x : Logged γ)
    (h : ∀ c, (f c).Alike view (g c)) : (x >>= f).Alike view (x >>= g) := by
  change (x.bind f).Alike view (x.bind g)
  obtain ⟨log, outcome⟩ := x
  cases outcome with
  | error cause => exact ⟨rfl, rfl⟩
  | ok c => exact ⟨congrArg (log ++ ·) (h c).log, (h c).outcome⟩

namespace Stage

variable {n : Nat} {S T : Stage n}

/-- **The same on and above the diagonal**, with the same right-hand side, multipliers, exchanges
and events. -/
structure SameAbove (S T : Stage n) : Prop where
  /-- The same upper triangle. -/
  upper : ∀ i j, i ≤ j → T.upper.entry i j = S.upper.entry i j
  /-- The same right-hand side. -/
  rhs : T.rhs = S.rhs
  /-- The same multipliers. -/
  lower : T.lower = S.lower
  /-- The same exchanges. -/
  swaps : T.swaps = S.swaps
  /-- The same events. -/
  log : T.log = S.log

/-- The residual only reads what is the same. -/
theorem SameAbove.upperResidual (h : S.SameAbove T) (x : List Scaled) (fracBits : Nat) :
    T.upper.upperResidual x T.rhs.toList fracBits =
      S.upper.upperResidual x S.rhs.toList fracBits := by
  rw [h.rhs, Grid.upperResidual_congr h.upper]

/-- So does back substitution. -/
theorem SameAbove.backSubstitute {σ : Type} (h : S.SameAbove T) (held : σ) (zero : Scaled) :
    T.system.backSubstitute held zero = S.system.backSubstitute held zero := by
  refine Augmented.backSubstitute_congr fun k j hj => ?_
  rcases Fin.eq_castSucc_or_eq_last j with ⟨j, rfl⟩ | rfl
  · simpa [Stage.upper, Augmented.matrix] using h.upper k j (Fin.castSucc_le_castSucc_iff.mp hj)
  · rw [← Augmented.get_rhs, ← Augmented.get_rhs]
    exact congrArg (·.get k) h.rhs

end Stage

/-- **What is left behind, the same on and above the diagonal**: the shape, the right-hand side
and the events are the same, and so is every coefficient whose column is at least its row. -/
structure Remains.SameAbove (r t : Remains) : Prop where
  /-- The same number of rows. -/
  rows : t.system.rows = r.system.rows
  /-- The same number of columns. -/
  cols : t.system.cols = r.system.cols
  /-- The same upper triangle. -/
  upper : ∀ i j, i ≤ j → Guarded.entry t.system.matrix i j = Guarded.entry r.system.matrix i j
  /-- The same right-hand side. -/
  rhs : t.system.rhs = r.system.rhs
  /-- The same events. -/
  log : t.log = r.log

theorem Remains.SameAbove.refl (r : Remains) : r.SameAbove r :=
  ⟨rfl, rfl, fun _ _ _ => rfl, rfl, rfl⟩

theorem Stage.SameAbove.remains {n : Nat} {S T : Stage n} (h : S.SameAbove T) :
    (LinearSystem.remains S).SameAbove (LinearSystem.remains T) := by
  -- the shape is known without comparing the tables
  have hshape : ∀ U : Stage n, (LinearSystem.remains U).system.rows = n ∧
      (LinearSystem.remains U).system.cols = n := fun _ => ⟨rfl, rfl⟩
  refine ⟨(hshape T).1.trans (hshape S).1.symm, (hshape T).2.trans (hshape S).2.symm,
    fun i j hij => ?_, congrArg Vector.toArray h.rhs, h.log⟩
  change Guarded.entry T.upper i j = Guarded.entry S.upper i j
  unfold Guarded.entry
  split
  · next hbounds => exact congrArg Except.ok (h.upper ⟨i, hbounds.1⟩ ⟨j, hbounds.2⟩ hij)
  · rfl

/-! ### Agreement -/

namespace Stage

variable {n : Nat} {i k : Fin n} {t t' : Nat} {S T : Stage n}

/-- **States that agree at step `t`**: they differ only in entries before the diagonal and before
column `t`, which no later action reads. -/
structure Agrees (t : Nat) (S T : Stage n) : Prop where
  /-- The same entry wherever the column is at least the row or at least `t`. -/
  entry : ∀ (k : Fin n) (j : Fin (n + 1)), min k.val t ≤ j.val →
    T.system.entry k j = S.system.entry k j
  /-- The same multipliers. -/
  lower : T.lower = S.lower
  /-- The same exchanges. -/
  swaps : T.swaps = S.swaps
  /-- The same events. -/
  log : T.log = S.log

namespace Agrees

theorem refl (t : Nat) (S : Stage n) : S.Agrees t S := ⟨fun _ _ _ => rfl, rfl, rfl, rfl⟩

/-- At a later step less has to be the same. -/
theorem mono (h : S.Agrees t T) (ht : t ≤ t') : S.Agrees t' T :=
  ⟨fun k j hj => h.entry k j ((min_le_min_left _ ht).trans hj), h.lower, h.swaps, h.log⟩

/-- At every step all that is on and above the diagonal is the same. -/
theorem sameAbove (h : S.Agrees t T) : S.SameAbove T := by
  have habove : ∀ (k : Fin n) (j : Fin (n + 1)), k.castSucc ≤ j →
      T.system.entry k j = S.system.entry k j :=
    fun k j hj => h.entry k j ((min_le_left _ _).trans hj)
  refine ⟨fun i j hij => ?_, Vector.ext fun i hi => ?_, h.lower, h.swaps, h.log⟩
  · simpa [Stage.upper, Augmented.matrix] using habove i j.castSucc hij
  · simpa [Stage.rhs, Augmented.rhs] using habove ⟨i, hi⟩ (Fin.last n) (Fin.le_last _)

/-- From the current column on, all entries are the same. -/
theorem entry_of_le (h : S.Agrees i T) (k : Fin n) {j : Fin (n + 1)} (hj : i.castSucc ≤ j) :
    T.system.entry k j = S.system.entry k j :=
  h.entry k j ((min_le_right _ _).trans hj)

theorem coefficient (h : S.Agrees i T) (k : Fin n) : T.coefficient k i = S.coefficient k i :=
  h.entry_of_le k le_rfl

/-- **An exchange keeps the agreement**: what the whole rows carry along is dead, or in rows that
are not exchanged. -/
theorem exchange (h : S.Agrees i T) (hik : i < k) :
    (S.exchange i k).Agrees i (T.exchangeWhole i k) := by
  refine ⟨fun l j hj => ?_, h.lower, ?_, ?_⟩
  · have hwhole : (T.exchangeWhole i k).system.entry l j = T.system.entry (Equiv.swap i k l) j := by
      rw [exchangeWhole, Grid.entry_swapFrom, if_neg (Nat.not_lt_zero _), Equiv.swap_apply_def]
      split_ifs <;> rfl
    rw [hwhole, entry_exchange]
    split
    · next hlt =>
      -- before column `i` only the rows above the exchanged ones are to agree
      have hli : l < i := by
        have : j.val < i.val := hlt
        rw [Fin.lt_def]
        omega
      rw [Equiv.swap_apply_of_ne_of_ne hli.ne (hli.trans hik).ne]
      exact h.entry l j hj
    · next hge => exact h.entry_of_le _ (not_lt.mp hge)
  · exact congrArg (· ++ _) h.swaps
  · change T.log ++ [.exceeds i k (T.coefficient k i) (T.coefficient i i)] =
      S.log ++ [.exceeds i k (S.coefficient k i) (S.coefficient i i)]
    rw [h.log, h.coefficient k, h.coefficient i]

/-- The two scans compare the same entries. -/
theorem scan (h : S.Agrees i T) : (S.scan i).Agrees i (T.scanWhole i) := by
  have hbelow : ∀ k ∈ rowsBelow i, i < k := fun k => mem_rowsBelow.mp
  rw [Stage.scan, scanWhole]
  generalize rowsBelow i = rows at hbelow
  induction rows generalizing S T with
  | nil => exact h
  | cons k rows ih =>
    rw [List.foldl_cons, List.foldl_cons]
    refine ih ?_ fun l hl => hbelow l (List.mem_cons_of_mem k hl)
    rw [compare, compareWhole, h.coefficient, h.coefficient]
    split
    · exact h.exchange (hbelow k List.mem_cons_self)
    · exact h

/-- The same entry written in both. -/
theorem setEntry (h : S.Agrees t T) (k : Fin n) (j : Fin (n + 1)) (d : Scaled) :
    Agrees t { S with system := S.system.setEntry k j d }
      { T with system := T.system.setEntry k j d } := by
  refine ⟨fun l j' hj' => ?_, h.lower, h.swaps, h.log⟩
  rw [Grid.entry_setEntry, Grid.entry_setEntry, h.entry l j' hj']

/-- **The two reductions go side by side.** -/
theorem alongside_reduce (h : S.Agrees i T) :
    (S.reduce i).Alongside SameAbove (Agrees i) (T.reduce i) := by
  rw [reduce, reduce, h.coefficient i]
  refine .foldlM (fun S' T' k _ h' => ?_) h
  rw [reduceRow, reduceRow, h'.coefficient k]
  refine (Alongside.consult h'.sameAbove _ _ _).bind ?_
  rintro factor _ rfl
  have hfactor : Agrees i { S' with lower := S'.lower.setEntry k i factor }
      { T' with lower := T'.lower.setEntry k i factor } :=
    ⟨h'.entry, by rw [h'.lower], h'.swaps, h'.log⟩
  refine .foldlM (fun S'' T'' j hj h'' => ?_) hfactor
  have hj' := mem_columnsFrom.mp hj
  rw [reduceEntry, reduceEntry, h''.entry_of_le i hj', h''.entry_of_le k hj']
  refine (Alongside.consult h''.sameAbove _ _ _).bind ?_
  rintro product _ rfl
  refine (Alongside.consult h''.sameAbove _ _ _).bind ?_
  rintro difference _ rfl
  exact .done (h''.setEntry k j difference)

/-- **One step** of both. -/
theorem alongside_step (h : S.Agrees i T) :
    (S.step i).Alongside SameAbove (Agrees i) (T.stepWhole i) :=
  h.scan.alongside_reduce

/-- The steps that are left, in order: the agreement at each of them is kept by those before. -/
theorem alongside_steps {steps : List (Fin n)} (hsteps : steps.Pairwise (· < ·))
    (h : ∀ i ∈ steps, S.Agrees i.val T) (hend : S.SameAbove T) :
    (steps.foldlM step S).Alongside SameAbove SameAbove (steps.foldlM stepWhole T) := by
  induction steps generalizing S T with
  | nil => exact .done hend
  | cons i steps ih =>
    obtain ⟨hi, hsteps⟩ := List.pairwise_cons.mp hsteps
    rw [List.foldlM_cons, List.foldlM_cons]
    refine (h i List.mem_cons_self).alongside_step.bind fun S' T' h' => ih hsteps ?_ h'.sameAbove
    exact fun i' hi' => h'.mono (hi i' hi').le

end Agrees

end Stage

/-! ### The procedures side by side -/

namespace Augmented

variable {n : Nat} (one zero : Scaled) (a : Augmented n)

/-- **The two eliminations go side by side.** -/
theorem alongside_eliminate :
    (a.eliminate one zero).Alongside Stage.SameAbove Stage.SameAbove
      (a.eliminateWhole one zero) :=
  Stage.Agrees.alongside_steps (List.pairwise_lt_finRange n) (fun _ _ => .refl _ _)
    (Stage.Agrees.refl 0 _).sameAbove

theorem alongside_solve :
    (a.solve one zero).Alongside Stage.SameAbove (fun r r' => r.1.SameAbove r'.1 ∧ r'.2 = r.2)
      (a.solveWhole one zero) := by
  refine (a.alongside_eliminate one zero).bind fun S T h => ?_
  have hback : (S.system.backSubstitute S zero).Alongside Stage.SameAbove Eq
      (T.system.backSubstitute T zero) := by
    rw [h.backSubstitute, ← mapHeld_backSubstitute (fun _ => S) (), ←
      mapHeld_backSubstitute (fun _ => T) ()]
    exact (Alongside.refl _).mapHeld fun _ _ _ => h
  refine hback.bind ?_
  rintro x _ rfl
  exact .done ⟨h, rfl⟩

end Augmented

namespace LinearSystem

/-- After the check of the shape, procedures go side by side if they do so without it. -/
theorem alongside_afterCheck {α : Type} {res : α → α → Prop} {s : LinearSystem}
    {f g : Augmented s.rows → Plan (Stage s.rows) α}
    (h : ∀ a, (f a).Alongside Stage.SameAbove res (g a)) :
    (s.afterCheck f).Alongside Remains.SameAbove res (s.afterCheck g) := by
  unfold afterCheck
  split
  · next a _ => exact (h a).mapHeld fun S T hST => hST.remains
  · exact .stop (.refl _)

end LinearSystem

namespace Config

variable {c : Config}

/-- The two eliminations in the configured format report the same events. -/
theorem eliminate_alike (a : Augmented c.dimension) :
    (∃ S T, S.SameAbove T ∧ c.eliminate a = ⟨S.log, .ok S⟩ ∧ c.eliminateWhole a = ⟨S.log, .ok T⟩) ∨
      ∃ log cause, c.eliminate a = ⟨log, .error cause⟩ ∧
        c.eliminateWhole a = ⟨log, .error cause⟩ := by
  have hruns := (a.alongside_eliminate c.format.arithmetic.one
    c.format.arithmetic.zero).alike_run (fun _ => c.format.arithmetic.apply) 0
  unfold eliminate eliminateWhole
  simp only [← outcome_run _ 0]
  generalize Plan.run _ _ (a.eliminate _ _) = run at hruns
  generalize Plan.run _ _ (a.eliminateWhole _ _) = run' at hruns
  cases hruns with
  | @finished calls S T h =>
    refine .inl ⟨S, T, h, rfl, ?_⟩
    rw [← h.log]
  | @failed calls cause S T h =>
    refine .inr ⟨S.log, cause, rfl, ?_⟩
    rw [← h.log]

theorem finish_alike {S T : Stage c.dimension} (h : S.SameAbove T) :
    (c.finish S).Alike Report.answer (c.finish T) := by
  have hback : c.backSubstitute T.system = c.backSubstitute S.system := by
    rw [backSubstitute, backSubstitute, h.backSubstitute]
  simp only [finish, h.swaps, hback, h.upperResidual]
  split
  · exact .bind _ fun _ => .bind _ fun x => .bind _ fun residual => .bind _ fun _ =>
      .pure (v := (S.swaps, x.toList, residual)) rfl rfl
  · exact .bind _ fun x => .bind _ fun residual => .bind _ fun _ =>
      .pure (v := (S.swaps, x.toList, residual)) rfl rfl

/-- **The solve is the same** whichever elimination it is by. -/
theorem solveBy_alike (c : Config) (matrix rhs : Array Scaled) :
    (c.solve matrix rhs).Alike Report.answer (c.solveBy c.eliminateWhole matrix rhs) := by
  rw [solve_eq_solveBy]
  refine .bind _ fun a => .bind _ fun _ => ?_
  rcases c.eliminate_alike a with ⟨S, T, h, hS, hT⟩ | ⟨log, cause, hS, hT⟩
  · rw [hS, hT]
    obtain ⟨hlog, houtcome⟩ := finish_alike h
    exact ⟨congrArg (S.log ++ ·) hlog, houtcome⟩
  · rw [hS, hT]
    exact ⟨rfl, rfl⟩

end Config

/-- **Exchanging whole rows changes nothing that is read.** Take any answers and any system,
well-shaped or not. The elimination and the one that exchanges whole rows make the same calls;
both end in a result, with the same multipliers, exchanges and events, or both in the same
error; and in either case the right-hand side and all entries on and above the diagonal are the
same. So are the solutions, or the errors, of the two solves, and the residuals of every vector.
The solve of flat data reports the same events either way, those of the exchanges among them,
and returns the same exchanges, solution and residual. -/
theorem LinearSystem.whole_rows_alike
    (answers : Nat → Op → Scaled → Scaled → Except Error Scaled) (one zero : Scaled)
    (s : LinearSystem) (c : Config) (matrix rhs : Array Scaled) :
    ((s.eliminate one zero).run answers 0).Alike Remains.SameAbove
      (fun S T => S.SameAbove T ∧ ∀ x fracBits, T.upper.upperResidual x T.rhs.toList fracBits =
        S.upper.upperResidual x S.rhs.toList fracBits) ((s.eliminateWhole one zero).run answers 0) ∧
    ((s.solve one zero).run answers 0).Alike Remains.SameAbove
      (fun r r' => r.1.SameAbove r'.1 ∧ r'.2 = r.2) ((s.solveWhole one zero).run answers 0) ∧
    (c.solve matrix rhs).Alike Report.answer (c.solveBy c.eliminateWhole matrix rhs) := by
  refine ⟨?_, ?_, c.solveBy_alike matrix rhs⟩
  · have hruns := (alongside_afterCheck (s := s) fun a =>
      a.alongside_eliminate one zero).alike_run answers 0
    exact hruns.imp fun S T h => ⟨h, h.upperResidual⟩
  · exact (alongside_afterCheck fun a => a.alongside_solve one zero).alike_run answers 0

/-- A system of integers with a quotient that is cut to zero, so that the first column keeps a
residue, and with an exchange after that. -/
def residueSystem : Augmented 3 := .join
  #v[#v[⟨3⟩, ⟨1⟩, ⟨0⟩], #v[⟨1⟩, ⟨1⟩, ⟨4⟩], #v[⟨2⟩, ⟨5⟩, ⟨1⟩]] #v[⟨4⟩, ⟨6⟩, ⟨8⟩]

/-- Below the diagonal the two eliminations do leave different matrices. -/
example :
    ((residueSystem.eliminate Format.integer.one .zero).eval
        Format.integer.arithmetic).toOption.map (fun S => S.upper.toLists) =
      some [[⟨3⟩, ⟨1⟩, ⟨0⟩], [⟨1⟩, ⟨5⟩, ⟨1⟩], [⟨2⟩, ⟨1⟩, ⟨4⟩]] ∧
    ((residueSystem.eliminateWhole Format.integer.one .zero).eval
        Format.integer.arithmetic).toOption.map (fun S => S.upper.toLists) =
      some [[⟨3⟩, ⟨1⟩, ⟨0⟩], [⟨2⟩, ⟨5⟩, ⟨1⟩], [⟨1⟩, ⟨1⟩, ⟨4⟩]] := by
  decide +kernel

end ScaledGauss

import Mathlib.Algebra.BigOperators.Intervals
import Mathlib.Data.Prod.Lex
import ScaledGauss.Proofs.Exact.Factorization
import ScaledGauss.Proofs.PivotScan
import ScaledGauss.Proofs.Solve

/-!
# The record of an elimination

What an elimination returns beside the triangle – the table of multipliers and the exchanges
made – has a form that does not depend on the arithmetic. The constants may be any two values, the
answers may be wrong, depend on the number of the call, or be refused halfway.

* **The table** has the first constant on its diagonal and the second one above it
  (`ScaledGauss.Stage.unitLower_of_yields`).
* **The exchanges** are made at places that follow one another: step by step, and within a step
  from the top, because a scan goes down the rows and exchanges the records that it meets
  (`ScaledGauss.Stage.InOrder.step`). There are only so many places below the diagonal
  (`ScaledGauss.length_le_of_ascending`).
* **The shape** is checked once, before anything else, and nothing that follows can change it. So
  a run that fails on the shape has made no call, and leaves its system as it was.
-/

namespace ScaledGauss

open Plan

variable {n : Nat}

/-! ### Exchanges in order -/

namespace Swap

/-- **The place of an exchange** in the order of a run: by its step, then by its row. -/
def place (e : Swap) : ℕ ×ₗ ℕ := toLex (e.step, e.row)

theorem place_lt_iff {e e' : Swap} :
    e.place < e'.place ↔ e.step < e'.step ∨ e.step = e'.step ∧ e.row < e'.row :=
  Prod.Lex.toLex_lt_toLex

end Swap

/-- **There are `n * (n - 1) / 2` places below the diagonal**, so a record that never returns to
one has at most so many exchanges. -/
theorem length_le_of_ascending {swaps : List Swap}
    (hascending : swaps.Pairwise fun e e' => e.place < e'.place)
    (hwithin : ∀ e ∈ swaps, e.step < e.row ∧ e.row < n) : swaps.length ≤ n * (n - 1) / 2 := by
  have hnodup : (swaps.map fun e => (⟨e.row, e.step⟩ : Σ _ : ℕ, ℕ)).Nodup := by
    refine List.pairwise_map.mpr (hascending.imp fun {e e'} hlt heq => ?_)
    rw [Sigma.mk.injEq, heq_eq_eq] at heq
    rw [Swap.place_lt_iff] at hlt
    omega
  have hsubset : (swaps.map fun e => (⟨e.row, e.step⟩ : Σ _ : ℕ, ℕ)).toFinset ⊆
      (Finset.range n).sigma Finset.range := by
    intro p hp
    obtain ⟨e, he, rfl⟩ := List.mem_map.mp (List.mem_toFinset.mp hp)
    obtain ⟨hstep, hrow⟩ := hwithin e he
    exact Finset.mem_sigma.mpr ⟨Finset.mem_range.mpr hrow, Finset.mem_range.mpr hstep⟩
  calc swaps.length
      = (swaps.map fun e => (⟨e.row, e.step⟩ : Σ _ : ℕ, ℕ)).toFinset.card := by
        rw [List.toFinset_card_of_nodup hnodup, List.length_map]
    _ ≤ ((Finset.range n).sigma Finset.range).card := Finset.card_le_card hsubset
    _ = ∑ k ∈ Finset.range n, k := by simp only [Finset.card_sigma, Finset.card_range]
    _ = n * (n - 1) / 2 := Finset.sum_range_id n

/-- **The row order of a record is a permutation** of the row numbers. -/
theorem bijective_rowOrder (swaps : List Swap) : Function.Bijective (rowOrder n swaps).get := by
  induction swaps using List.reverseRecOn with
  | nil =>
    have hid : (rowOrder n []).get = id := funext get_rowOrder_nil
    rw [hid]
    exact Function.bijective_id
  | append_singleton swaps e ih =>
    have hconcat : (rowOrder n (swaps ++ [e])).get = (rowOrder n swaps).get ∘ e.perm n :=
      funext (get_rowOrder_concat swaps e)
    rw [hconcat]
    exact ih.comp (e.perm n).bijective

namespace Stage

variable {R : Law} {a : Augmented n} {i : Fin n} {S S' : Stage n} {one zero : Scaled}

/-- **A record in order**, after a number of steps: every exchange on it was made at a finished
step with a row further down, each at a later place than the one before. -/
structure InOrder (finished : Nat) (S : Stage n) : Prop where
  /-- The exchanges are those of finished steps. -/
  within : ∀ e ∈ S.swaps, e.step < finished ∧ e.step < e.row ∧ e.row < n
  /-- They follow one another. -/
  ascending : S.swaps.Pairwise fun e e' => e.place < e'.place

/-- **One step** adds the exchanges of its records, from the top. -/
theorem InOrder.step (h : S.InOrder i) (hstep : Yields R (S.step i) S') :
    S'.InOrder (i.val + 1) := by
  have hscan := S.scanned_scan i
  have hswaps : S'.swaps = S.swaps ++ (S.records i).tail.map fun p => ⟨i, p⟩ :=
    (reduced_of_yields hstep).swaps.trans hscan.swaps
  -- the records after the first are below the diagonal row, which is the first
  obtain ⟨rest, hrest⟩ := List.head?_eq_some_iff.mp hscan.first
  have hsorted := hscan.ascending
  rw [hrest] at hsorted hswaps
  obtain ⟨hbelow, hsorted⟩ := List.pairwise_cons.mp hsorted
  constructor
  · intro e he
    rw [hswaps, List.mem_append] at he
    rcases he with he | he
    · obtain ⟨hlt, hrow⟩ := h.within e he
      exact ⟨hlt.trans (Nat.lt_succ_self _), hrow⟩
    · obtain ⟨p, hp, rfl⟩ := List.mem_map.mp he
      exact ⟨Nat.lt_succ_self _, hbelow p hp, p.isLt⟩
  · rw [hswaps]
    refine List.pairwise_append.mpr ⟨h.ascending, ?_, ?_⟩
    · refine List.pairwise_map.mpr (hsorted.imp fun {p q} hpq => ?_)
      exact Swap.place_lt_iff.mpr (.inr ⟨rfl, hpq⟩)
    · intro e he e' he'
      obtain ⟨p, -, rfl⟩ := List.mem_map.mp he'
      exact Swap.place_lt_iff.mpr (.inl (h.within e he).1)

/-- **A whole run** leaves a record in order. -/
theorem inOrder_of_yields (h : Yields R (a.eliminate one zero) S) : S.InOrder n :=
  h.step_induction (I := InOrder) ⟨nofun, .nil⟩ fun _ _ _ _ hS hstep => hS.step hstep

/-- **What is on record** after an elimination that returns is well formed. -/
structure WellRecorded (one zero : Scaled) (S : Stage n) : Prop where
  /-- The table of multipliers has the constants on its diagonal and above it. -/
  lower : S.lower.UnitLower one zero
  /-- Every exchange is one of two rows, the second further down. -/
  within : ∀ e ∈ S.swaps, e.step < e.row ∧ e.row < n
  /-- The exchanges are strictly in order, by their steps and then by their rows. -/
  ascending : S.swaps.Pairwise fun e e' => e.place < e'.place
  /-- There are at most as many as there are places below the diagonal. -/
  length_le : S.swaps.length ≤ n * (n - 1) / 2
  /-- Made in order among the row numbers, they permute them. -/
  permutes : Function.Bijective (rowOrder n S.swaps).get

theorem wellRecorded_of_yields (h : Yields R (a.eliminate one zero) S) :
    S.WellRecorded one zero := by
  have horder := inOrder_of_yields h
  have hwithin : ∀ e ∈ S.swaps, e.step < e.row ∧ e.row < n := fun e he => (horder.within e he).2
  exact ⟨unitLower_of_yields h, hwithin, horder.ascending,
    length_le_of_ascending horder.ascending hwithin, bijective_rowOrder S.swaps⟩

end Stage

/-! ### The shape -/

/-- **The errors of the shape**: there are no equations, or a part has not the size asked for. -/
inductive Error.OfShape : Error → Prop
  /-- There are no equations. -/
  | emptySystem : OfShape .emptySystem
  /-- A part of the system has not the size that its dimension asks for. -/
  | dimensionMismatch (part : Part) (expected got : Nat) :
      OfShape (.dimensionMismatch part expected got)

namespace LinearSystem

variable {s : LinearSystem}

/-- **Systems of the same shape.** -/
structure SameShape (s t : LinearSystem) : Prop where
  /-- The matrices have the same number of rows. -/
  rows : s.rows = t.rows
  /-- They have the same number of columns. -/
  cols : s.cols = t.cols
  /-- The right-hand sides have the same length. -/
  rhs : s.rhs.size = t.rhs.size

/-- What a stage of an elimination leaves behind has the shape that was checked. -/
theorem sameShape_remains {a : Augmented s.rows} (h : s.augmented = .ok a) (S : Stage s.rows) :
    (remains S).system.SameShape s := by
  unfold augmented at h
  split at h
  · cases h
  · split at h
    · next hcols =>
      split at h
      · next hrhs => exact ⟨rfl, hcols.symm, S.system.rhs.size_toArray.trans hrhs.symm⟩
      · cases h
    · cases h

/-- The check of the shape fails with an error of the shape. -/
theorem ofShape_of_augmented {cause : Error} (h : s.augmented = .error cause) :
    cause.OfShape := by
  unfold augmented at h
  split at h
  · cases h
    exact .emptySystem
  · split at h
    · split at h
      · cases h
      · cases h
        exact .dimensionMismatch _ _ _
    · cases h
      exact .dimensionMismatch _ _ _

theorem dimension_eq_error_iff {cause : Error} :
    s.dimension = .error cause ↔ s.augmented = .error cause := by
  rw [dimension]
  cases s.augmented <;> simp

end LinearSystem

/-! ### Any run -/

namespace LinearSystem

variable {s : LinearSystem} {one zero : Scaled}
  {answers : Nat → Op → Scaled → Scaled → Except Error Scaled}

/-- On a system of the right shape a recorded run is one on its augmented matrix. -/
theorem run_eliminate_of_augmented {a : Augmented s.rows} (h : s.augmented = .ok a) :
    (s.eliminate one zero).run answers 0 = ⟨((a.eliminate one zero).run answers 0).calls,
      ((a.eliminate one zero).run answers 0).outcome.mapError fun stopped =>
        ⟨stopped.cause, remains stopped.held⟩⟩ := by
  rw [eliminate, afterCheck_of_augmented h, run_mapHeld]

/-- On any other system it ends at once. -/
theorem run_eliminate_of_error {cause : Error} (h : s.augmented = .error cause) :
    (s.eliminate one zero).run answers 0 = ⟨[], .error ⟨cause, ⟨s, []⟩⟩⟩ := by
  rw [eliminate, afterCheck, h]
  rfl

/-- **The record of an elimination is well formed in every run**, whatever the two constants are
and however the calls are answered. If the run returns, then the table of multipliers has the
constants on its diagonal and above it, every exchange is one with a row further down, the
exchanges are strictly in order, so that there are at most `n * (n - 1) / 2`, and made in order
they permute the row numbers. The shape of the system is the same at the end, also where a call
is refused. A system of the wrong shape fails with an error of the shape, has no call made and is
left exactly as it was; and unless an answer is refused with such an error, this is the only way
to one. -/
theorem eliminate_wellRecorded (s : LinearSystem) (one zero : Scaled)
    (answers : Nat → Op → Scaled → Scaled → Except Error Scaled) :
    (∀ S, ((s.eliminate one zero).run answers 0).outcome = .ok S →
      S.WellRecorded one zero ∧ (remains S).system.SameShape s) ∧
    (∀ stopped, ((s.eliminate one zero).run answers 0).outcome = .error stopped →
      stopped.held.system.SameShape s) ∧
    (∀ cause, s.dimension = .error cause → cause.OfShape ∧
      (s.eliminate one zero).run answers 0 = ⟨[], .error ⟨cause, ⟨s, []⟩⟩⟩) ∧
    ((∀ t op left right cause, answers t op left right = .error cause → ¬cause.OfShape) →
      ∀ stopped, ((s.eliminate one zero).run answers 0).outcome = .error stopped →
        stopped.cause.OfShape →
        s.dimension = .error stopped.cause ∧ stopped.held = ⟨s, []⟩ ∧
          ((s.eliminate one zero).run answers 0).calls = []) := by
  simp only [dimension_eq_error_iff]
  cases haugmented : s.augmented with
  | error cause =>
    -- the check of the shape stops the run
    simp only [run_eliminate_of_error haugmented, Except.error.injEq]
    refine ⟨nofun, ?_, ?_, ?_⟩
    · rintro stopped rfl
      exact ⟨rfl, rfl, rfl⟩
    · rintro cause' rfl
      exact ⟨ofShape_of_augmented haugmented, rfl⟩
    · rintro - stopped rfl -
      exact ⟨rfl, rfl, trivial⟩
  | ok a =>
    simp only [run_eliminate_of_augmented haugmented, mapError_eq_ok_iff, mapError_eq_error_iff]
    refine ⟨fun S hS => ?_, ?_, nofun, ?_⟩
    · exact ⟨Stage.wellRecorded_of_yields (yields_of_run hS), sameShape_remains haugmented S⟩
    · rintro _ ⟨stopped, -, rfl⟩
      exact sameShape_remains haugmented stopped.held
    · -- without the check every error is a refusal
      rintro hanswers _ ⟨stopped, hstopped, rfl⟩ hshape
      obtain ⟨t, op, left, right, hrefused⟩ :=
        (Augmented.consulting_eliminate one zero a).refusal_of_run_error hstopped
      exact absurd hshape (hanswers t op left right _ hrefused)

/-- Answers that have nothing to do with the operands: the number of the call, up to a limit, and
a refusal from there on. -/
def countingAnswers (limit : Nat) : Nat → Op → Scaled → Scaled → Except Error Scaled :=
  fun t _ _ _ => if t < limit then .ok ⟨.ofNat t⟩ else .error .divisionByZero

/-- A system in which every comparison of the first scan is an exchange. -/
def climbingSystem : LinearSystem where
  rows := 3
  cols := 3
  matrix := #v[#v[⟨1⟩, ⟨0⟩, ⟨5⟩], #v[⟨2⟩, ⟨8⟩, ⟨0⟩], #v[⟨3⟩, ⟨0⟩, ⟨4⟩]]
  rhs := #[⟨1⟩, ⟨2⟩, ⟨3⟩]

/-- A system with more unknowns than equations. -/
def oblongSystem : LinearSystem where
  rows := 2
  cols := 3
  matrix := #v[#v[⟨1⟩, ⟨0⟩, ⟨5⟩], #v[⟨2⟩, ⟨8⟩, ⟨0⟩]]
  rhs := #[⟨1⟩, ⟨2⟩]

theorem eliminate_wellRecorded_counting :
    (∃ S, ((climbingSystem.eliminate ⟨7⟩ ⟨-3⟩).run (countingAnswers 100) 0).outcome = .ok S ∧
      S.swaps = [⟨0, 1⟩, ⟨0, 2⟩, ⟨1, 2⟩] ∧ S.WellRecorded ⟨7⟩ ⟨-3⟩) ∧
    (∃ stopped,
      ((climbingSystem.eliminate ⟨7⟩ ⟨-3⟩).run (countingAnswers 9) 0).outcome = .error stopped ∧
      stopped.held.system.SameShape climbingSystem) ∧
    oblongSystem.dimension = .error (.dimensionMismatch .matrixColumns 2 3) ∧
    (oblongSystem.eliminate ⟨7⟩ ⟨-3⟩).run (countingAnswers 9) 0 =
      ⟨[], .error ⟨.dimensionMismatch .matrixColumns 2 3, ⟨oblongSystem, []⟩⟩⟩ ∧
    (∀ t op left right cause, countingAnswers 9 t op left right = .error cause →
      ¬cause.OfShape) ∧
    ∀ stopped, ((oblongSystem.eliminate ⟨7⟩ ⟨-3⟩).run (countingAnswers 9) 0).outcome =
        .error stopped → stopped.cause.OfShape →
      ((oblongSystem.eliminate ⟨7⟩ ⟨-3⟩).run (countingAnswers 9) 0).calls = [] := by
  have hreturned : ((climbingSystem.eliminate ⟨7⟩ ⟨-3⟩).run
      (countingAnswers 100) 0).outcome.toOption.map Stage.swaps =
        some [⟨0, 1⟩, ⟨0, 2⟩, ⟨1, 2⟩] := by
    decide +kernel
  have hrefused : (((climbingSystem.eliminate ⟨7⟩ ⟨-3⟩).run
      (countingAnswers 9) 0).outcome.toOption.map Stage.swaps) = none := by
    decide +kernel
  have hanswers : ∀ t op left right cause, countingAnswers 9 t op left right = .error cause →
      ¬cause.OfShape := by
    intro t op left right cause hcause
    unfold countingAnswers at hcause
    split at hcause
    · cases hcause
    · cases hcause
      rintro ⟨⟩
  have hoblong : oblongSystem.dimension = .error (.dimensionMismatch .matrixColumns 2 3) := rfl
  obtain ⟨S, hS, hswaps⟩ := exists_ok_of_view hreturned
  refine ⟨⟨S, hS, hswaps, ?_⟩, ?_, hoblong, ?_, hanswers, ?_⟩
  · exact ((eliminate_wellRecorded _ _ _ _).1 S hS).1
  · cases houtcome : ((climbingSystem.eliminate ⟨7⟩ ⟨-3⟩).run (countingAnswers 9) 0).outcome with
    | ok S => simp [houtcome, Except.toOption] at hrefused
    | error stopped =>
      exact ⟨stopped, rfl, (eliminate_wellRecorded _ _ _ _).2.1 stopped houtcome⟩
  · exact ((eliminate_wellRecorded _ _ _ _).2.2.1 _ hoblong).2
  · intro stopped hstopped hshape
    exact ((eliminate_wellRecorded _ _ _ _).2.2.2 hanswers stopped hstopped hshape).2.2

end LinearSystem

end ScaledGauss

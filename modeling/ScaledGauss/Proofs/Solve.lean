import ScaledGauss.Proofs.Residual
import ScaledGauss.Proofs.Rounding
import ScaledGauss.Solve

/-!
# What a solve returns

A solve is described by its actions, each of which may report events. Its outcome is
shorter to say: the data is assembled into a system, the plan
`ScaledGauss.Augmented.solve` is run over the arithmetic of the format, and the unknowns
are put into a report together with their residual
(`ScaledGauss.Config.outcome_solve`). The calls of that one run are the calls of the solve
(`ScaledGauss.Config.calls`).

Data of the right shape is always assembled
(`ScaledGauss.Config.Describes.exists_assemble`), a finished run always has a report
(`ScaledGauss.Stage.exists_report`), and the plan has no failure of its own
(`ScaledGauss.Augmented.consulting_solve`). So whatever goes wrong in a solve of such data
is an answer that the arithmetic refuses.
-/

namespace ScaledGauss

open Plan

/-! ### Outcomes -/

section Outcomes

variable {ε ε' α β : Type} {x : Except ε α}

theorem bind_eq_ok_iff {f : α → Except ε β} {b : β} :
    x >>= f = .ok b ↔ ∃ a, x = .ok a ∧ f a = .ok b := by
  cases x with
  | ok a => simp
  | error e => exact ⟨nofun, nofun⟩

theorem bind_eq_error_iff {f : α → Except ε β} {e : ε} :
    x >>= f = .error e ↔ x = .error e ∨ ∃ a, x = .ok a ∧ f a = .error e := by
  cases x with
  | ok a => simp
  | error e' =>
    constructor
    · intro h
      exact .inl (congrArg Except.error (Except.error.inj h))
    · rintro (h | ⟨a, h, -⟩)
      · exact congrArg Except.error (Except.error.inj h)
      · cases h

theorem mapError_eq_ok_iff {g : ε → ε'} {a : α} : x.mapError g = .ok a ↔ x = .ok a := by
  cases x <;> simp [Except.mapError]

theorem mapError_eq_error_iff {g : ε → ε'} {e' : ε'} :
    x.mapError g = .error e' ↔ ∃ e, x = .error e ∧ g e = e' := by
  cases x <;> simp [Except.mapError]

end Outcomes

namespace Logged

variable {α β : Type}

@[simp] theorem outcome_quiet (outcome : Except Error α) : (quiet outcome).outcome = outcome := rfl

@[simp] theorem outcome_tell (events : List Event) : (tell events).outcome = .ok () := rfl

/-- The events of the first part do not matter for the outcome of the second. -/
@[simp] theorem outcome_bind (x : Logged α) (f : α → Logged β) :
    (x >>= f).outcome = x.outcome >>= fun a => (f a).outcome := by
  change (x.bind f).outcome = _
  rw [bind]
  cases x.outcome <;> rfl

end Logged

/-! ### Views of the state held -/

namespace Plan

variable {σ τ α β ι : Type} {view : σ → τ}

theorem mapHeld_bind (p : Plan σ α) (f : α → Plan σ β) :
    (p >>= f).mapHeld view = p.mapHeld view >>= fun a => (f a).mapHeld view := by
  change (p.bind f).mapHeld view = (p.mapHeld view).bind fun a => (f a).mapHeld view
  induction p with
  | done a => rfl
  | stop held cause => rfl
  | call held op left right next ih =>
    exact congrArg (Plan.call (view held) op left right) (funext ih)

theorem mapHeld_foldlM (f : β → ι → Plan σ β) (l : List ι) (b : β) :
    (l.foldlM f b).mapHeld view = l.foldlM (fun b x => (f b x).mapHeld view) b := by
  induction l generalizing b with
  | nil => rfl
  | cons x l ih => simp only [List.foldlM_cons, mapHeld_bind, ih]

/-- Why a run ends early does not depend on how the state held is viewed. -/
theorem eval_mapHeld_cause (A : Arithmetic) (view : σ → τ) (p : Plan σ α) :
    ((p.mapHeld view).eval A).mapError Stopped.cause = (p.eval A).mapError Stopped.cause := by
  induction p with
  | done a => rfl
  | stop held cause => rfl
  | call held op left right next ih =>
    rw [mapHeld, eval, eval]
    cases A.apply op left right with
    | ok answer => exact ih answer
    | error cause => rfl

/-- **What a plan returns** over an arithmetic: its result, or the cause of its failure
without the state left behind. -/
def result (A : Arithmetic) (p : Plan σ α) : Except Error α := (p.eval A).mapError Stopped.cause

theorem result_mapHeld (A : Arithmetic) (view : σ → τ) (p : Plan σ α) :
    (p.mapHeld view).result A = p.result A :=
  eval_mapHeld_cause A view p

theorem result_consult (A : Arithmetic) (held : σ) (op : Op) (left right : Scaled) :
    (consult held op left right).result A = A.apply op left right := by
  rw [result, eval_consult]
  cases A.apply op left right with
  | ok answer => rfl
  | error cause => rfl

theorem result_bind (A : Arithmetic) (p : Plan σ α) (f : α → Plan σ β) :
    (p >>= f).result A = p.result A >>= fun a => (f a).result A := by
  rw [result, result, eval_bind]
  cases p.eval A with
  | ok a => rfl
  | error stopped => rfl

theorem result_foldlM (A : Arithmetic) (f : β → ι → Plan σ β) (l : List ι) (b : β) :
    (l.foldlM f b).result A = l.foldlM (fun b x => (f b x).result A) b := by
  induction l generalizing b with
  | nil => rfl
  | cons x l ih => simp only [List.foldlM_cons, result_bind, ih]

end Plan

namespace Augmented

variable {n : Nat} {σ τ : Type}

/-- Back substitution does not look at the state it holds. -/
theorem mapHeld_backSubstitute (view : σ → τ) (held : σ) (zero : Scaled) (a : Augmented n) :
    (a.backSubstitute held zero).mapHeld view = a.backSubstitute (view held) zero := by
  have hsum : ∀ x i, (a.weightedSum held zero x i).mapHeld view =
      a.weightedSum (view held) zero x i := by
    intro x i
    simp only [weightedSum, mapHeld_foldlM, mapHeld_bind]
    rfl
  have hdividend : ∀ x i, (a.dividend held zero x i).mapHeld view =
      a.dividend (view held) zero x i := by
    intro x i
    rw [dividend, dividend]
    split
    · rfl
    · rw [mapHeld_bind, hsum]
      rfl
  rw [backSubstitute, backSubstitute, mapHeld_foldlM]
  simp only [substitute, mapHeld_bind, hdividend]
  rfl

end Augmented

/-! ### The outcome of a solve -/

/-- **The report on a finished run**: the triangular system with the unknowns and their
residual. -/
def Stage.report {n : Nat} (fracBits : Nat) (S : Stage n) (x : Column n) :
    Except Error Report := do
  let residual ← S.upper.upperResidual x.toList S.rhs.toList fracBits
  return {
    n := n
    upper := S.upper
    rhs := S.rhs
    lower := S.lower
    swaps := S.swaps
    solution := x
    residual := residual }

namespace Config

/-- **The plan of a solve**, with the constants of the format. -/
def plan (c : Config) (a : Augmented c.dimension) :
    Plan (Stage c.dimension) (Stage c.dimension × Column c.dimension) :=
  a.solve c.format.arithmetic.one c.format.arithmetic.zero

variable {c : Config}

theorem outcome_eliminate (a : Augmented c.dimension) :
    (c.eliminate a).outcome = ((a.eliminate c.format.arithmetic.one
      c.format.arithmetic.zero).eval c.format.arithmetic).mapError Stopped.cause := by
  simp only [eliminate]
  split <;> simp [*, Except.mapError]

theorem backSubstitute_eq {σ : Type} (held : σ) (a : Augmented c.dimension) :
    c.backSubstitute a = ((a.backSubstitute held c.format.arithmetic.zero).eval
      c.format.arithmetic).mapError Stopped.cause := by
  rw [← eval_mapHeld_cause _ fun _ => (), Augmented.mapHeld_backSubstitute]
  simp only [backSubstitute]
  split <;> simp [*, Except.mapError]

/-- **The outcome of a solve**: data assembled, one run over the arithmetic of the format,
and a report. -/
theorem outcome_solve (c : Config) (matrix rhs : Array Scaled) :
    (c.solve matrix rhs).outcome =
      c.assemble matrix rhs >>= fun a =>
        ((c.plan a).eval c.format.arithmetic).mapError Stopped.cause >>= fun r =>
          r.1.report c.format.fracBits r.2 := by
  -- the verbosity decides about events only
  have hactions : (c.solve matrix rhs).outcome =
      c.assemble matrix rhs >>= fun a => (c.eliminate a).outcome >>= fun S =>
        c.backSubstitute S.system >>= fun x => S.report c.format.fracBits x := by
    simp only [solve, Logged.outcome_bind, Logged.outcome_quiet, Logged.outcome_tell, ok_bind,
      apply_ite Logged.outcome, ite_self]
    rfl
  rw [hactions]
  refine congrArg _ (funext fun a => ?_)
  rw [outcome_eliminate, plan, Augmented.solve, eval_bind]
  cases (a.eliminate c.format.arithmetic.one c.format.arithmetic.zero).eval
    c.format.arithmetic with
  | error stopped => rfl
  | ok S =>
    rw [ok_bind, eval_bind]
    change c.backSubstitute S.system >>= _ = _
    rw [c.backSubstitute_eq S]
    cases (S.system.backSubstitute S c.format.arithmetic.zero).eval c.format.arithmetic with
    | error stopped => rfl
    | ok x => rfl

/-- **What a solve returns**: the report on a finished run. -/
theorem outcome_solve_eq_ok_iff {matrix rhs : Array Scaled} {report : Report} :
    (c.solve matrix rhs).outcome = .ok report ↔
      ∃ a, c.assemble matrix rhs = .ok a ∧ ∃ r, (c.plan a).eval c.format.arithmetic = .ok r ∧
        r.1.report c.format.fracBits r.2 = .ok report := by
  simp only [outcome_solve, bind_eq_ok_iff, mapError_eq_ok_iff]

/-- **How a solve fails**: in its data, in its run or in its report. -/
theorem outcome_solve_eq_error_iff {matrix rhs : Array Scaled} {e : Error} :
    (c.solve matrix rhs).outcome = .error e ↔
      c.assemble matrix rhs = .error e ∨ ∃ a, c.assemble matrix rhs = .ok a ∧
        ((∃ stopped, (c.plan a).eval c.format.arithmetic = .error stopped ∧ stopped.cause = e) ∨
          ∃ r, (c.plan a).eval c.format.arithmetic = .ok r ∧
            r.1.report c.format.fracBits r.2 = .error e) := by
  simp only [outcome_solve, bind_eq_error_iff, mapError_eq_ok_iff, mapError_eq_error_iff]

/-- **The calls of a solve**, in order: those of the elimination, then those of the back
substitution, up to the first that is refused. -/
def calls (c : Config) (matrix rhs : Array Scaled) : List Call :=
  match c.assemble matrix rhs with
  | .ok a => ((c.plan a).trace c.format.arithmetic).calls
  | .error _ => []

end Config

/-! ### Data of the right shape -/

/-- **Data that describes a system** of the configured dimension: there are unknowns, the
matrix has an entry for every two of them, the right-hand side one for each. The size of a
sequence is below `2 ^ 64`. -/
structure Config.Describes (c : Config) (matrix rhs : Array Scaled) : Prop where
  /-- There are unknowns. -/
  pos : 0 < c.dimension
  /-- The matrix is square. -/
  matrix_size : matrix.size = c.dimension * c.dimension
  /-- The matrix is a sequence that a machine can hold. -/
  matrix_size_lt : matrix.size < pow2 64
  /-- The right-hand side has the same length. -/
  rhs_size : rhs.size = c.dimension

namespace Config.Describes

variable {c : Config} {matrix rhs : Array Scaled}

theorem exists_assemble (h : c.Describes matrix rhs) : ∃ a, c.assemble matrix rhs = .ok a := by
  have hsize : Word.size (c.dimension * c.dimension) = .ok (c.dimension * c.dimension) :=
    if_pos (h.matrix_size ▸ h.matrix_size_lt)
  rw [assemble, validate, if_neg h.pos.ne', ok_bind, Grid.ofFlat, if_neg h.pos.ne', hsize,
    ok_bind, dif_pos h.matrix_size, columnOfFlat, dif_pos h.rhs_size]
  exact ⟨_, rfl⟩

theorem dimension_lt (h : c.Describes matrix rhs) : c.dimension < pow2 32 := by
  have hsquare : c.dimension * c.dimension < pow2 32 * pow2 32 := by
    rw [← pow2_add, ← h.matrix_size]
    exact h.matrix_size_lt
  exact Nat.mul_self_lt_mul_self_iff.mp hsquare

end Config.Describes

/-- **A finished run has a report**: its residual is computed in words that are wide enough
for the sums of every matrix a machine can hold. -/
theorem Stage.exists_report {n fracBits : Nat} (hn : n < pow2 32) (hk : fracBits < 128)
    (S : Stage n) (x : Column n) : ∃ report, S.report fracBits x = .ok report := by
  have hbound : ∀ i terms, terms <+: S.upper.rowTerms x i →
      (Grid.dot terms).natAbs ≤ 0x20000000000000000000000000000000 := by
    intro i terms ht
    have hlength := ht.length_le.trans (S.upper.length_rowTerms_le x i)
    have hn' : n < 4294967296 := hn
    -- at most `2 ^ 32` products of two raw values
    calc (Grid.dot terms).natAbs ≤ terms.length * 0x4000000000000000 := Grid.natAbs_dot_le terms
      _ ≤ 4294967296 * 0x4000000000000000 := Nat.mul_le_mul_right _ (by omega)
      _ ≤ 0x20000000000000000000000000000000 := by norm_num
  rw [report, Grid.upperResidual_square hk hbound]
  exact ⟨_, rfl⟩

/-! ### Failures -/

namespace Augmented

variable {n : Nat} {σ : Type}

theorem consulting_eliminate (one zero : Scaled) (a : Augmented n) :
    (a.eliminate one zero).Consulting := by
  refine Consulting.foldlM (fun S i => Consulting.foldlM (fun S k => ?_) _ _) _ _
  refine (consulting_consult _ _ _ _).bind fun factor => ?_
  refine Consulting.foldlM (fun S j => ?_) _ _
  refine (consulting_consult _ _ _ _).bind fun product => ?_
  exact (consulting_consult _ _ _ _).bind fun difference => consulting_pure _

theorem consulting_backSubstitute (held : σ) (zero : Scaled) (a : Augmented n) :
    (a.backSubstitute held zero).Consulting := by
  refine Consulting.foldlM (fun x i => ?_) _ _
  refine Consulting.bind ?_ fun dividend =>
    (consulting_consult _ _ _ _).bind fun unknown => consulting_pure _
  rw [dividend]
  split
  · exact consulting_pure _
  · refine Consulting.bind ?_ fun sum => consulting_consult _ _ _ _
    exact Consulting.foldlM
      (fun sum j => (consulting_consult _ _ _ _).bind fun _ => consulting_consult _ _ _ _) _ _

/-- **A solve has no failure of its own**: it can only be refused an answer. -/
theorem consulting_solve (one zero : Scaled) (a : Augmented n) : (a.solve one zero).Consulting :=
  (consulting_eliminate one zero a).bind fun S =>
    (consulting_backSubstitute S zero S.system).bind fun x => consulting_pure (S, x)

end Augmented

/-- **Whatever goes wrong in a solve** of data that describes a system is an answer that the
arithmetic of the format refuses. -/
theorem Config.Describes.refusal_of_error {c : Config} {matrix rhs : Array Scaled} {e : Error}
    (h : c.Describes matrix rhs) (herror : (c.solve matrix rhs).outcome = .error e) :
    ∃ op left right, c.format.arithmetic.apply op left right = .error e := by
  obtain ⟨a, ha⟩ := h.exists_assemble
  rcases outcome_solve_eq_error_iff.mp herror with ha' | ⟨a', ha', hfail⟩
  · rw [ha] at ha'
    cases ha'
  obtain rfl : a = a' := Except.ok.inj (ha.symm.trans ha')
  rcases hfail with ⟨stopped, hrun, rfl⟩ | ⟨r, -, hreport⟩
  · exact (a.consulting_solve _ _).refusal_of_eval_error hrun
  · have hk : c.format.fracBits < 128 := c.format.fracBits_le.trans_lt (by decide)
    obtain ⟨report, hreport'⟩ := r.1.exists_report h.dimension_lt hk r.2
    rw [hreport'] at hreport
    cases hreport

end ScaledGauss

import ScaledGauss.Proofs.EntryPoints
import ScaledGauss.Proofs.FirstFailure
import ScaledGauss.Proofs.ZeroPivot

/-!
# Which error a problem reports

A problem can be wrong in several ways at once, and it is told one of them. Its checks
(`ScaledGauss.Problem.Check`) are made in a fixed order: first the reals of the matrix are
converted, then those of the right-hand side; then the shape is looked at; and then the
arithmetic of the format is consulted, by the elimination and by the back substitution. What it
means for a check to fail is said for each of them by itself
(`ScaledGauss.Problem.Fails`), without a word about the others, and the error of a problem is
the one of the first that fails
(`ScaledGauss.Problem.outcome_solve_eq_error_iff_firstFails`).

That nothing is done before the shape is known to be right is said of the solve as one plan
(`ScaledGauss.Problem.plan`), which holds the events reported so far: with a wrong shape it stops
before its first call (`ScaledGauss.Problem.run_plan_of_firstFails`).
-/

namespace ScaledGauss

open Plan

/-! ### The checks of a problem -/

namespace Problem

/-- **The checks that a problem has to pass.** -/
inductive Check
  /-- The reals of the matrix have raw values. -/
  | matrixValues
  /-- The reals of the right-hand side have raw values. -/
  | rhsValues
  /-- There are equations. -/
  | equations
  /-- The square of the dimension is a size. -/
  | size
  /-- The matrix has as many entries. -/
  | matrixLength
  /-- The right-hand side has as many entries as there are equations. -/
  | rhsLength
  /-- The elimination gets its answers. -/
  | elimination
  /-- The back substitution gets its answers. -/
  | backSubstitution

/-- The checks of the numbers and of the shape, in order. -/
def Check.ofShape : List Check :=
  [.matrixValues, .rhsValues, .equations, .size, .matrixLength, .rhsLength]

/-- **All checks**, in order. -/
def Check.all : List Check := ofShape ++ [.elimination, .backSubstitution]

theorem Check.mem_all (check : Check) : check ∈ all := by
  cases check <;> simp [all, ofShape]

/-- **The system that a problem states**: its numbers are the raw values of the matrix, row by
row, and of the right-hand side. -/
structure States (p : Problem) (a : Augmented p.config.dimension) : Prop where
  /-- The matrix. -/
  matrix : p.matrix.scaled p.config.format = .ok a.matrix.flatten.toList
  /-- The right-hand side. -/
  rhs : p.rhs.scaled p.config.format = .ok a.rhs.toList

/-- **What it means for a check to fail**, and with which error. -/
def Fails (p : Problem) : Check → Error → Prop
  | .matrixValues, e => p.matrix.FirstRefused p.config.format e
  | .rhsValues, e => p.rhs.FirstRefused p.config.format e
  | .equations, e => p.config.dimension = 0 ∧ e = .emptySystem
  | .size, e => 2 ^ 32 ≤ p.config.dimension ∧ e = .fault .wordOverflow
  | .matrixLength, e =>
    p.matrix.length ≠ p.config.dimension ^ 2 ∧
      e = .dimensionMismatch .flattenedMatrix (p.config.dimension ^ 2) p.matrix.length
  | .rhsLength, e =>
    p.rhs.length ≠ p.config.dimension ∧
      e = .dimensionMismatch .rightHandSide p.config.dimension p.rhs.length
  | .elimination, e => ∃ a, p.States a ∧
    (a.eliminate p.config.format.arithmetic.one p.config.format.arithmetic.zero).FirstRefused
      p.config.format.arithmetic e
  | .backSubstitution, e => ∃ a S, p.States a ∧
    (a.eliminate p.config.format.arithmetic.one p.config.format.arithmetic.zero).result
      p.config.format.arithmetic = .ok S ∧
    (S.system.backSubstitute () p.config.format.arithmetic.zero).FirstRefused
      p.config.format.arithmetic e

end Problem

/-! ### The shape -/

/-- A condition that has to hold, with the error if it does not. -/
def require (P : Prop) [Decidable P] (e : Error) : Except Error Unit :=
  if P then .ok () else .error e

theorem require_eq_ok_iff {P : Prop} [Decidable P] {e : Error} : require P e = .ok () ↔ P := by
  simp [require]

theorem require_eq_error_iff {P : Prop} [Decidable P] {e e' : Error} :
    require P e = .error e' ↔ ¬P ∧ e' = e := by
  by_cases hP : P <;> simp [require, hP, eq_comm]

/-- **The checks of the shape of flat data**, one after the other. -/
theorem Config.assemble_eq (c : Config) (matrix rhs : Array Scaled) :
    c.assemble matrix rhs = (do
      require (c.dimension ≠ 0) .emptySystem
      require (c.dimension < pow2 32) (.fault .wordOverflow)
      require (matrix.size = c.dimension * c.dimension)
        (.dimensionMismatch .flattenedMatrix (c.dimension * c.dimension) matrix.size)
      require (rhs.size = c.dimension) (.dimensionMismatch .rightHandSide c.dimension rhs.size)
      .ok (.join (.rowMajor c.dimension matrix) (.ofFn fun i => rhs.getD i .zero))) := by
  rw [assemble, validate]
  by_cases hpos : c.dimension = 0
  · rw [if_pos hpos, require, if_neg (not_not.mpr hpos)]
    rfl
  rw [if_neg hpos, require, if_pos hpos, ok_bind, ok_bind, Grid.ofFlat, if_neg hpos,
    Word.size_square]
  by_cases hsize : c.dimension < pow2 32
  swap
  · rw [if_neg hsize, require, if_neg hsize]
    rfl
  rw [if_pos hsize, require, if_pos hsize, ok_bind, ok_bind]
  by_cases hmatrix : matrix.size = c.dimension * c.dimension
  swap
  · rw [dif_neg hmatrix, require, if_neg hmatrix]
    rfl
  rw [dif_pos hmatrix, require, if_pos hmatrix, columnOfFlat]
  by_cases hrhs : rhs.size = c.dimension
  swap
  · rw [dif_neg hrhs, require, if_neg hrhs]
    rfl
  rw [dif_pos hrhs, require, if_pos hrhs]
  refine congrArg₂ (fun m b => Except.ok (Augmented.join m b)) (Grid.ext_entry fun i j => ?_)
    (Vector.ext fun i hi => ?_)
  · have hij : i.val * c.dimension + j.val < matrix.size := hmatrix ▸ Grid.flatIndex_lt i j
    simp [Grid.rowMajor, hij]
  · simp [hrhs]

namespace Grid

variable {n : Nat}

theorem flatten_rowMajor {data : Array Scaled} (h : data.size = n * n) :
    (rowMajor n data).flatten.toArray = data := by
  refine Array.ext (by simp [h]) fun i hi hi' => ?_
  have hi'' : i < n * n := h ▸ hi'
  rw [Vector.getElem_toArray, Vector.getElem_flatten hi'']
  simp [rowMajor, ofEntries, Nat.div_add_mod', hi']

theorem rowMajor_flatten (g : Grid n n) : rowMajor n g.flatten.toArray = g := by
  refine ext_entry fun i j => ?_
  have hij := flatIndex_lt i j
  have hrow : (i.val * n + j.val) / n = i.val := by
    rw [Nat.mul_comm, Nat.mul_add_div (j.pos), Nat.div_eq_of_lt j.isLt, Nat.add_zero]
  rw [rowMajor, entry_ofEntries, Array.getD_eq_getD_getElem?, Array.getElem?_eq_getElem (by simpa)]
  simp [Vector.getElem_flatten hij, hrow, Nat.mul_add_mod_of_lt j.isLt, entry, vector_get]

end Grid

namespace Problem

variable {p : Problem} {e : Error}

/-- A problem states at most one system. -/
theorem States.unique {a b : Augmented p.config.dimension} (ha : p.States a) (hb : p.States b) :
    a = b := by
  have hmatrix : a.matrix.flatten = b.matrix.flatten :=
    Vector.toList_inj.mp (Except.ok.inj (ha.matrix.symm.trans hb.matrix))
  have hrhs : a.rhs = b.rhs := Vector.toList_inj.mp (Except.ok.inj (ha.rhs.symm.trans hb.rhs))
  rw [← a.join_matrix_rhs, ← b.join_matrix_rhs, hrhs, ← Grid.rowMajor_flatten a.matrix, hmatrix,
    Grid.rowMajor_flatten]

/-- **The system of a problem**, converted and checked for its shape. -/
def assembled (p : Problem) : Except Error (Augmented p.config.dimension) := do
  let system ← p.flat
  p.config.assemble system.matrix.toArray system.rhs.toArray

theorem assembled_eq (p : Problem) :
    p.assembled = (do
      let matrix ← p.matrix.scaled p.config.format
      let rhs ← p.rhs.scaled p.config.format
      p.config.assemble matrix.toArray rhs.toArray) := by
  rw [assembled, flat, bind_assoc]
  refine congrArg _ (funext fun matrix => ?_)
  rw [bind_assoc]
  rfl

/-- **The shape of a problem is refused** with the error of the first check that fails. -/
theorem assembled_eq_error_iff :
    p.assembled = .error e ↔ FirstFails p.Fails Check.ofShape e := by
  rw [assembled_eq]
  refine bind_eq_error_iff_firstFails_cons (fun _ => Values.scaled_eq_error_iff) fun m hm => ?_
  refine bind_eq_error_iff_firstFails_cons (fun _ => Values.scaled_eq_error_iff) fun b hb => ?_
  rw [Config.assemble_eq, List.size_toArray, List.size_toArray, Values.length_of_scaled hm,
    Values.length_of_scaled hb, ← sq]
  refine bind_eq_error_iff_firstFails_cons (fun _ => ?_) fun _ _ => ?_
  · rw [require_eq_error_iff, not_not]
    rfl
  refine bind_eq_error_iff_firstFails_cons (fun _ => ?_) fun _ _ => ?_
  · rw [require_eq_error_iff, not_lt]
    rfl
  refine bind_eq_error_iff_firstFails_cons (fun _ => require_eq_error_iff) fun _ _ => ?_
  refine bind_eq_error_iff_firstFails_cons (fun _ => require_eq_error_iff) fun _ _ => ?_
  exact ⟨nofun, fun h => (not_firstFails_nil h).elim⟩

/-- **The system of a problem that passes** is the one that it states. -/
theorem states_of_assembled {a : Augmented p.config.dimension} (h : p.assembled = .ok a) :
    p.States a ∧ p.config.dimension < pow2 32 := by
  rw [assembled_eq] at h
  obtain ⟨m, hm, h⟩ := bind_eq_ok_iff.mp h
  obtain ⟨b, hb, h⟩ := bind_eq_ok_iff.mp h
  rw [Config.assemble_eq] at h
  obtain ⟨⟨⟩, -, h⟩ := bind_eq_ok_iff.mp h
  obtain ⟨⟨⟩, hdim, h⟩ := bind_eq_ok_iff.mp h
  obtain ⟨⟨⟩, hmatrix, h⟩ := bind_eq_ok_iff.mp h
  obtain ⟨⟨⟩, hrhs, h⟩ := bind_eq_ok_iff.mp h
  rw [require_eq_ok_iff] at hdim hmatrix hrhs
  obtain rfl := Except.ok.inj h
  refine ⟨⟨?_, ?_⟩, hdim⟩
  · rw [Augmented.matrix_join, hm, Vector.toList, Grid.flatten_rowMajor hmatrix]
  · rw [Augmented.rhs_join, hb]
    refine congrArg Except.ok (List.ext_getElem ?_ fun i hi hi' => ?_)
    · simpa using hrhs
    · simp [hi]

end Problem

/-! ### The whole solve as one plan -/

/-- What is known goes on into the rest, after its events. -/
theorem Logged.ok_bind {α β : Type} (log : List Event) (a : α) (f : α → Logged β) :
    ((⟨log, .ok a⟩ : Logged α) >>= f) = ⟨log ++ (f a).log, (f a).outcome⟩ := rfl

theorem Logged.tell_bind {β : Type} (events : List Event) (f : Unit → Logged β) :
    (tell events >>= f) = ⟨events ++ (f ()).log, (f ()).outcome⟩ := rfl

/-- **A plan that holds its events** over an arithmetic: the events reported up to its end,
whichever that is, and its outcome. -/
def Plan.logged {α : Type} (A : Arithmetic) (p : Plan (List Event) (List Event × α)) : Logged α :=
  match p.eval A with
  | .ok (log, a) => ⟨log, .ok a⟩
  | .error stopped => ⟨stopped.held, .error stopped.cause⟩

theorem Plan.outcome_logged {α : Type} (A : Arithmetic) (p : Plan (List Event) (List Event × α)) :
    (p.logged A).outcome = p.result A >>= fun r => .ok r.2 := by
  rw [logged, result]
  cases p.eval A with
  | ok r => rfl
  | error stopped => rfl

/-- Plans in sequence make the calls of the first and then those of the second, whatever they
hold. -/
theorem Plan.calls_mapHeld_bind {σ τ α β γ : Type}
    {answers : Nat → Op → Scaled → Scaled → Except Error Scaled} {view : σ → τ}
    {f : α → Plan τ β} {g : α → Plan σ γ}
    (h : ∀ a i, ((f a).run answers i).calls = ((g a).run answers i).calls) (p : Plan σ α)
    (i : Nat) :
    ((p.mapHeld view >>= f).run answers i).calls = ((p >>= g).run answers i).calls := by
  change (((p.mapHeld view).bind f).run answers i).calls = ((p.bind g).run answers i).calls
  induction p generalizing i with
  | done a => exact h a i
  | stop held cause => rfl
  | call held op left right next ih =>
    rw [mapHeld, bind, bind, run, run]
    cases answers i op left right with
    | ok answer => exact congrArg _ (ih answer (i + 1))
    | error cause => rfl

namespace Config

variable (c : Config)

/-- The event that opens a solve. -/
def opening : Event := .solving c.dimension c.format.fracBits

/-- The events between elimination and back substitution. -/
def exchanges (S : Stage c.dimension) : List Event :=
  if 0 < c.verbosity then S.swaps.map fun swap => .swapped swap.step swap.row else []

/-- **The plan of a whole solve**, which holds the events reported so far. -/
def loggedPlan (a : Augmented c.dimension) : Plan (List Event) (List Event × Report) := do
  let S ← (a.eliminate c.format.arithmetic.one c.format.arithmetic.zero).mapHeld
    fun S => c.opening :: S.log
  let log := c.opening :: S.log ++ c.exchanges S
  let x ← S.system.backSubstitute log c.format.arithmetic.zero
  match S.report c.format.fracBits x with
  | .error cause => .stop log cause
  | .ok report => .done (log ++ [.solved x.toList report.residual], report)

theorem tell_exchanges {α : Type} (S : Stage c.dimension) (rest : Logged α) :
    (if 0 < c.verbosity then
        Logged.tell (S.swaps.map fun swap => .swapped swap.step swap.row) >>= fun _ => rest
      else rest) = ⟨c.exchanges S ++ rest.log, rest.outcome⟩ := by
  rw [exchanges]
  split <;> rfl

/-- **A solve is its plan**, run over the arithmetic of the format: events and outcome. -/
theorem solve_eq_logged {matrix rhs : Array Scaled} {a : Augmented c.dimension}
    (h : c.assemble matrix rhs = .ok a) :
    c.solve matrix rhs = (c.loggedPlan a).logged c.format.arithmetic := by
  rw [solve, h, Logged.quiet_ok_bind, logged, loggedPlan, eval_bind, eval_mapHeld, eliminate]
  cases (a.eliminate c.format.arithmetic.one c.format.arithmetic.zero).eval
    c.format.arithmetic with
  | error stopped => rfl
  | ok S =>
    rw [Logged.tell_bind, Logged.ok_bind, c.tell_exchanges S, ← List.append_assoc S.log,
      ← List.append_assoc]
    simp only [Except.mapError, ok_bind, eval_bind]
    rw [← Augmented.mapHeld_backSubstitute (fun _ => _) (), eval_mapHeld, backSubstitute]
    cases (S.system.backSubstitute () c.format.arithmetic.zero).eval c.format.arithmetic with
    | error stopped => exact congrArg (Logged.mk · (.error stopped.cause)) (List.append_nil _)
    | ok x =>
      simp only [Except.mapError, ok_bind, Stage.report, Logged.quiet_ok_bind]
      cases S.upper.upperResidual x.toList S.rhs.toList c.format.fracBits with
      | error cause => exact congrArg (Logged.mk · (.error cause)) (List.append_nil _)
      | ok residual => rfl

/-- **What the plan of a solve returns**: the elimination, the back substitution and the report,
in sequence. -/
theorem outcome_loggedPlan (a : Augmented c.dimension) :
    ((c.loggedPlan a).logged c.format.arithmetic).outcome = (do
      let S ← (a.eliminate c.format.arithmetic.one c.format.arithmetic.zero).result
        c.format.arithmetic
      let x ← (S.system.backSubstitute () c.format.arithmetic.zero).result c.format.arithmetic
      S.report c.format.fracBits x) := by
  rw [outcome_logged, loggedPlan, result_bind, result_mapHeld, bind_assoc]
  refine congrArg _ (funext fun S => ?_)
  rw [result_bind, ← Augmented.mapHeld_backSubstitute (fun _ => _) (), result_mapHeld, bind_assoc]
  refine congrArg _ (funext fun x => ?_)
  cases S.report c.format.fracBits x <;> rfl

/-- **The calls of a whole solve** are those of the elimination and then those of the back
substitution. -/
theorem calls_loggedPlan (a : Augmented c.dimension)
    (answers : Nat → Op → Scaled → Scaled → Except Error Scaled) (i : Nat) :
    ((c.loggedPlan a).run answers i).calls = ((c.plan a).run answers i).calls := by
  refine calls_mapHeld_bind (fun S j => ?_) _ i
  dsimp only
  rw [← Augmented.mapHeld_backSubstitute
    (fun _ : Stage c.dimension => c.opening :: S.log ++ c.exchanges S) S]
  refine calls_mapHeld_bind (fun x k => ?_) _ j
  cases S.report c.format.fracBits x <;> rfl

end Config

namespace Problem

variable {p : Problem} {e : Error}

/-- **The plan of a problem**: it stops before its first call and its first event if the numbers
or the shape are refused. -/
def plan (p : Problem) : Plan (List Event) (List Event × Report) :=
  match p.assembled with
  | .error cause => .stop [] cause
  | .ok a => p.config.loggedPlan a

/-- **A problem is solved by its plan**, run over the arithmetic of the format. -/
theorem solve_eq_logged (p : Problem) :
    p.solve = p.plan.logged p.config.format.arithmetic := by
  rw [solve, plan, assembled]
  cases p.flat with
  | error cause => rfl
  | ok system =>
    rw [Logged.quiet_ok_bind, ok_bind]
    cases h : p.config.assemble system.matrix.toArray system.rhs.toArray with
    | error cause =>
      rw [Config.solve, h]
      rfl
    | ok a => exact p.config.solve_eq_logged h

/-- **A problem fails** with the error of the first check that fails. -/
theorem outcome_solve_eq_error_iff_firstFails :
    p.solve.outcome = .error e ↔ FirstFails p.Fails Check.all e := by
  have hsolve : p.solve.outcome = p.assembled >>= fun a =>
      ((p.config.loggedPlan a).logged p.config.format.arithmetic).outcome := by
    rw [solve_eq_logged, plan]
    cases p.assembled <;> rfl
  rw [hsolve]
  refine bind_eq_error_iff_firstFails (fun _ => assembled_eq_error_iff) fun a ha => ?_
  obtain ⟨hstates, hdim⟩ := states_of_assembled ha
  rw [Config.outcome_loggedPlan]
  refine bind_eq_error_iff_firstFails_cons (fun e => ?_) fun S hS => ?_
  · rw [(a.consulting_eliminate _ _).result_eq_error_iff]
    constructor
    · exact fun h => ⟨a, hstates, h⟩
    · rintro ⟨b, hb, h⟩
      rwa [hb.unique hstates] at h
  refine bind_eq_error_iff_firstFails_cons (fun e => ?_) fun x _ => ?_
  · rw [(S.system.consulting_backSubstitute () _).result_eq_error_iff]
    constructor
    · exact fun h => ⟨a, S, hstates, hS, h⟩
    · rintro ⟨b, T, hb, hT, h⟩
      obtain rfl := hb.unique hstates
      rwa [Except.ok.inj (hT.symm.trans hS)] at h
  · -- a finished run has its report
    have hk : p.config.format.fracBits < 128 := p.config.format.fracBits_le.trans_lt (by decide)
    obtain ⟨report, hreport⟩ := S.exists_report hdim hk x
    rw [hreport]
    exact ⟨nofun, fun h => (not_firstFails_nil h).elim⟩

/-- **A problem whose shape is refused** makes no call and reports no event, whatever the answers
would be. -/
theorem run_plan_of_firstFails (h : FirstFails p.Fails Check.ofShape e)
    (answers : Nat → Op → Scaled → Scaled → Except Error Scaled) (i : Nat) :
    p.plan.run answers i = ⟨[], .error ⟨e, []⟩⟩ := by
  rw [plan, assembled_eq_error_iff.mpr h]
  rfl

/-- **A problem whose shape is right** reports so before anything else. -/
theorem exists_log_of_assembled {a : Augmented p.config.dimension} (h : p.assembled = .ok a) :
    ∃ events, p.solve.log = p.config.opening :: events := by
  obtain ⟨system, hflat, hassemble⟩ := bind_eq_ok_iff.mp h
  rw [solve, hflat, Logged.quiet_ok_bind, Config.solve, hassemble, Logged.quiet_ok_bind,
    Logged.tell_bind]
  exact ⟨_, rfl⟩

/-- **Which error a problem reports.** A problem fails exactly when a check fails, with the error
of the first one: the reals of the matrix and then those of the right-hand side, the number of
equations, the size of the square, the two lengths, the calls of the elimination and then those of
the back substitution. It has a report exactly when none fails. What does not convert is not
finite, or out of range under a policy that reports it. The whole solve is the run of one plan
that holds the events reported so far; where the numbers or the shape are refused, this plan makes
no call and there is no event; otherwise the first event says that the solve begins, and the calls
are those of the elimination and the back substitution of the system that the problem states. -/
theorem solve_reports_first_failure (p : Problem) :
    (∀ e, p.solve.outcome = .error e ↔ FirstFails p.Fails Check.all e) ∧
    ((∃ report, p.solve.outcome = .ok report) ↔ ∀ check e, ¬p.Fails check e) ∧
    (∀ e, p.Fails .matrixValues e ∨ p.Fails .rhsValues e →
      e = .notFinite ∨ e = .overflow Format.conversion) ∧
    p.solve = p.plan.logged p.config.format.arithmetic ∧
    (∀ e, FirstFails p.Fails Check.ofShape e → p.solve = ⟨[], .error e⟩ ∧
      ∀ answers i, p.plan.run answers i = ⟨[], .error ⟨e, []⟩⟩) ∧
    ((∀ check ∈ Check.ofShape, ∀ e, ¬p.Fails check e) →
      (∃ events, p.solve.log = p.config.opening :: events) ∧
      ∃ a, p.States a ∧ ∀ answers i,
        (p.plan.run answers i).calls = ((p.config.plan a).run answers i).calls) := by
  refine ⟨fun e => outcome_solve_eq_error_iff_firstFails, ?_, ?_, p.solve_eq_logged, ?_, ?_⟩
  · have hall : (∃ e, p.solve.outcome = .error e) ↔ ∃ check e, p.Fails check e := by
      simp only [outcome_solve_eq_error_iff_firstFails, exists_firstFails_iff, Check.mem_all,
        true_and]
    rw [← not_iff_not]
    push Not
    rw [← hall]
    cases p.solve.outcome <;> simp
  · rintro e (⟨values, -, before, x, after, -, hx, -⟩ | ⟨values, -, before, x, after, -, hx, -⟩)
    · exact Format.cause_of_ofReal hx
    · exact Format.cause_of_ofReal hx
  · intro e he
    refine ⟨?_, run_plan_of_firstFails he⟩
    rw [solve_eq_logged, logged, ← outcome_run _ 0, run_plan_of_firstFails he]
  · intro hshape
    cases ha : p.assembled with
    | error e =>
      obtain ⟨check, hcheck, e', he'⟩ :=
        exists_firstFails_iff.mp ⟨e, assembled_eq_error_iff.mp ha⟩
      exact (hshape check hcheck e' he').elim
    | ok a =>
      refine ⟨exists_log_of_assembled ha, a, (states_of_assembled ha).1, fun answers i => ?_⟩
      rw [plan, ha]
      exact p.config.calls_loggedPlan a answers i

/-- A problem with many faults: a number beyond the range of its format, one that is not a number,
an infinite right-hand side, and too few numbers. -/
def entangledProblem (overflow : Overflow) : Problem where
  config := { Config.ofDimension 3 with format := Format.standard.withOverflow overflow }
  matrix := .real [.ofDyadic false 1 0, .ofDyadic true 70000 0, .nan]
  rhs := .real [.infinity false]

/-- One equation with coefficient zero. -/
def groundlessProblem : Problem where
  config := { Config.ofDimension 1 with format := Format.standard.withOverflow .wrapping }
  matrix := .raw [⟨0⟩]
  rhs := .raw [⟨1⟩]

theorem solve_reports_first_failure_entangled :
    (entangledProblem .checked).solve = ⟨[], .error (.overflow Format.conversion)⟩ ∧
    (entangledProblem .wrapping).solve = ⟨[], .error .notFinite⟩ ∧
    groundlessProblem.Fails .backSubstitution .divisionByZero ∧
    FirstFails groundlessProblem.Fails Check.all .divisionByZero := by
  have hone : ∀ overflow, (entangledProblem overflow).config.format.ofReal (.ofDyadic false 1 0) =
      .ok ⟨65536⟩ := by
    intro overflow
    cases overflow <;> decide +kernel
  have hwrapped : (entangledProblem .wrapping).config.format.ofReal (.ofDyadic true 70000 0) =
      .ok ⟨-292552704⟩ := by
    decide +kernel
  -- under the checked policy the second number of the matrix is out of range
  have hchecked : FirstFails (entangledProblem .checked).Fails Check.ofShape
      (.overflow Format.conversion) :=
    ⟨[], .matrixValues, _, rfl, ⟨_, rfl, [.ofDyadic false 1 0], .ofDyadic true 70000 0, [.nan], rfl,
      by decide +kernel, by simp [hone]⟩, by simp⟩
  -- under the wrapping policy it has a raw value, and the third one is not a number
  have hwrapping : FirstFails (entangledProblem .wrapping).Fails Check.ofShape .notFinite :=
    ⟨[], .matrixValues, _, rfl, ⟨_, rfl, [.ofDyadic false 1 0, .ofDyadic true 70000 0], .nan, [],
      rfl, by decide +kernel, by simp [hone, hwrapped]⟩, by simp⟩
  have hdivides : groundlessProblem.Fails .backSubstitution .divisionByZero :=
    ⟨.join #v[#v[⟨0⟩]] #v[⟨1⟩], .start _ _ _, ⟨by decide +kernel, by decide +kernel⟩, rfl,
      [], ⟨.divide, ⟨1⟩, ⟨0⟩, none⟩, [], by decide +kernel, by decide +kernel, by simp⟩
  have houtcome : groundlessProblem.solve.outcome.map (fun _ => ()) = .error .divisionByZero := by
    decide +kernel
  obtain ⟨-, -, -, -, hshape, -⟩ := solve_reports_first_failure (entangledProblem .checked)
  obtain ⟨-, -, -, -, hshape', -⟩ := solve_reports_first_failure (entangledProblem .wrapping)
  obtain ⟨herror, -⟩ := solve_reports_first_failure groundlessProblem
  refine ⟨(hshape _ hchecked).1, (hshape' _ hwrapping).1, hdivides, (herror _).mp ?_⟩
  cases hsolve : groundlessProblem.solve.outcome with
  | ok report => simp [hsolve, Except.map] at houtcome
  | error e => simpa [hsolve, Except.map] using houtcome

end Problem

end ScaledGauss

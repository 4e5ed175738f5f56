import ScaledGauss.LinearSystem
import ScaledGauss.Problem
import ScaledGauss.Proofs.Faults

/-!
# The ways into the solver

A system can be handed over in several ways: as a matrix and a right-hand side of any shape
(`ScaledGauss.LinearSystem.solve`), as flat data with a configuration
(`ScaledGauss.Config.solve`, `ScaledGauss.Config.solution`), with owners, as a problem in raw
values, or as one of a batch. This file shows that it makes no difference.

Flat data of the right size is the row-major form of exactly one system
(`ScaledGauss.Config.system`), and its solve is the solve of that system, errors included
(`ScaledGauss.Config.outcome_solution_eq`). The report adds the residual, which is always
there to be added, so a report is returned as soon as there is a solution
(`ScaledGauss.Config.outcome_solve_eq`).
-/

namespace ScaledGauss

open Plan

/-! ### Results over an arithmetic -/

namespace LinearSystem

/-- **The factors of a system** over an arithmetic: the state in which its elimination ends. -/
def factors (A : Arithmetic) (s : LinearSystem) : Except Error (Stage s.rows) :=
  (s.eliminate A.one A.zero).result A

/-- **The unknowns of a system** over an arithmetic. -/
def unknowns (A : Arithmetic) (s : LinearSystem) : Except Error (Column s.rows) :=
  ((s.solve A.one A.zero).result A).map Prod.snd

variable {A : Arithmetic} {s : LinearSystem} {a : Augmented s.rows}

theorem result_solve (h : s.augmented = .ok a) :
    (s.solve A.one A.zero).result A = (a.solve A.one A.zero).result A := by
  rw [solve, afterCheck_of_augmented h, result_mapHeld]

/-- A solve that ends has the factors of its system. -/
theorem factors_of_result (h : s.augmented = .ok a) {S : Stage s.rows} {x : Column s.rows}
    (hr : (s.solve A.one A.zero).result A = .ok (S, x)) : s.factors A = .ok S := by
  rw [result_solve h, Augmented.solve, result_bind] at hr
  obtain ⟨T, hT, hr⟩ := bind_eq_ok_iff.mp hr
  rw [result_bind] at hr
  obtain ⟨y, -, hr⟩ := bind_eq_ok_iff.mp hr
  obtain rfl : T = S := congrArg Prod.fst (Except.ok.inj hr)
  rw [factors, eliminate, afterCheck_of_augmented h, result_mapHeld, hT]

/-- **The unknowns are there** exactly when a solve ends. -/
theorem unknowns_eq_ok_iff {x : Column s.rows} :
    s.unknowns A = .ok x ↔ ∃ S, (s.solve A.one A.zero).result A = .ok (S, x) := by
  rw [unknowns]
  cases (s.solve A.one A.zero).result A with
  | error e => simp [Except.map]
  | ok r => simp [Except.map, Prod.ext_iff]

theorem unknowns_eq_error_iff {e : Error} :
    s.unknowns A = .error e ↔ (s.solve A.one A.zero).result A = .error e := by
  rw [unknowns]
  cases (s.solve A.one A.zero).result A with
  | error e => simp [Except.map]
  | ok r => simp [Except.map]

end LinearSystem

/-! ### Flat data as a system -/

/-- **The square matrix that flat data describes**, row by row. -/
def Grid.rowMajor (n : Nat) (data : Array Scaled) : Grid n n :=
  .ofEntries fun i j => data.getD (i.val * n + j.val) .zero

theorem Grid.ofFlat_eq_rowMajor {n : Nat} {data : Array Scaled} (hn : 0 < n)
    (hsize : data.size = n * n) (hlt : data.size < pow2 64) :
    Grid.ofFlat n data = .ok (.rowMajor n data) := by
  have hsquare : Word.size (n * n) = .ok (n * n) := if_pos (hsize ▸ hlt)
  rw [ofFlat, if_neg hn.ne', hsquare, ok_bind, dif_pos hsize]
  refine congrArg Except.ok (ext_entry fun i j => ?_)
  have hij : i.val * n + j.val < data.size := hsize ▸ flatIndex_lt i j
  simp [rowMajor, hij]

namespace Config

variable {c : Config} {matrix rhs : Array Scaled}

/-- **The system that flat data describes.** -/
def system (c : Config) (matrix rhs : Array Scaled) : LinearSystem where
  rows := c.dimension
  cols := c.dimension
  matrix := .rowMajor c.dimension matrix
  rhs := rhs

/-- Data of the right size is assembled into its system. -/
theorem Describes.augmented_system (h : c.Describes matrix rhs) :
    ∃ a, c.assemble matrix rhs = .ok a ∧ (c.system matrix rhs).augmented = .ok a := by
  refine ⟨.join (.rowMajor c.dimension matrix) ⟨rhs, h.rhs_size⟩, ?_, ?_⟩
  · rw [assemble, validate, if_neg h.pos.ne', ok_bind,
      Grid.ofFlat_eq_rowMajor h.pos h.matrix_size h.matrix_size_lt, ok_bind, columnOfFlat,
      dif_pos h.rhs_size]
    rfl
  · refine (if_neg h.pos.ne').trans ((dif_pos rfl).trans ((dif_pos h.rhs_size).trans ?_))
    refine congrArg (fun m => Except.ok (Augmented.join m _)) (Grid.ext_entry fun i j => ?_)
    rw [Grid.entry_ofEntries]
    rfl

/-- **The outcome of a solve** of data of the right size is that of its system, with a report
made of it. -/
theorem Describes.outcome_solve_eq (h : c.Describes matrix rhs) :
    (c.solve matrix rhs).outcome =
      ((c.system matrix rhs).solve c.format.arithmetic.one c.format.arithmetic.zero).result
        c.format.arithmetic >>= fun r => r.1.report c.format.fracBits r.2 := by
  obtain ⟨a, hassemble, haugmented⟩ := h.augmented_system
  rw [outcome_solve, hassemble, LinearSystem.result_solve haugmented]
  rfl

/-- **A report** consists of the factors of the system, its unknowns and their residual. -/
theorem Describes.outcome_solve_eq_ok_iff (h : c.Describes matrix rhs) {report : Report} :
    (c.solve matrix rhs).outcome = .ok report ↔
      ∃ (S : Stage c.dimension) (x : Column c.dimension) (residual : Nat),
        (c.system matrix rhs).factors c.format.arithmetic = .ok S ∧
        (c.system matrix rhs).unknowns c.format.arithmetic = .ok x ∧
        S.upper.upperResidual x.toList S.rhs.toList c.format.fracBits = .ok residual ∧
        report = ⟨c.dimension, S.upper, S.rhs, S.lower, S.swaps, x, residual⟩ := by
  obtain ⟨a, -, haugmented⟩ := h.augmented_system
  rw [h.outcome_solve_eq, bind_eq_ok_iff]
  constructor
  · rintro ⟨⟨S, x⟩, hr, hreport⟩
    obtain ⟨residual, hresidual, hreport⟩ := bind_eq_ok_iff.mp hreport
    exact ⟨S, x, residual, LinearSystem.factors_of_result haugmented hr,
      LinearSystem.unknowns_eq_ok_iff.mpr ⟨S, hr⟩, hresidual, (Except.ok.inj hreport).symm⟩
  · rintro ⟨S, x, residual, hS, hx, hresidual, rfl⟩
    obtain ⟨T, hr⟩ := LinearSystem.unknowns_eq_ok_iff.mp hx
    have hT := LinearSystem.factors_of_result haugmented hr
    obtain rfl : T = S := Except.ok.inj (hT.symm.trans hS)
    exact ⟨(T, x), hr, bind_eq_ok_iff.mpr ⟨residual, hresidual, rfl⟩⟩

/-- **A solve fails** as the solve of its system does: the residual has no part in it. -/
theorem Describes.outcome_solve_eq_error_iff (h : c.Describes matrix rhs) {e : Error} :
    (c.solve matrix rhs).outcome = .error e ↔
      (c.system matrix rhs).unknowns c.format.arithmetic = .error e := by
  have hk : c.format.fracBits < 128 := c.format.fracBits_le.trans_lt (by decide)
  rw [h.outcome_solve_eq, LinearSystem.unknowns_eq_error_iff, bind_eq_error_iff]
  refine or_iff_left ?_
  rintro ⟨r, -, hreport⟩
  obtain ⟨report, hreport'⟩ := r.1.exists_report h.dimension_lt hk r.2
  cases hreport'.symm.trans hreport

theorem outcome_solution (c : Config) (matrix rhs : Array Scaled) :
    (c.solution matrix rhs).outcome =
      (c.solve matrix rhs).outcome >>= fun report => .ok report.solution.toList := by
  rw [solution, Logged.outcome_bind]
  rfl

/-- **The solution alone** of data of the right size is that of its system, errors
included. -/
theorem Describes.outcome_solution_eq (h : c.Describes matrix rhs) :
    (c.solution matrix rhs).outcome =
      ((c.system matrix rhs).unknowns c.format.arithmetic).map Vector.toList := by
  rw [outcome_solution]
  cases hsolve : (c.solve matrix rhs).outcome with
  | error e => rw [h.outcome_solve_eq_error_iff.mp hsolve]; rfl
  | ok report =>
    obtain ⟨S, x, residual, -, hx, -, rfl⟩ := h.outcome_solve_eq_ok_iff.mp hsolve
    rw [hx]
    rfl

end Config

/-! ### Problems and batches -/

/-- What is known without events is passed on without events. -/
theorem Logged.quiet_ok_bind {α β : Type} (a : α) (f : α → Logged β) :
    (quiet (.ok a) >>= f) = f a := rfl

/-- **A problem in raw values** is solved as it is. -/
theorem Problem.solve_raw (c : Config) (matrix rhs : Array Scaled) :
    solve ⟨c, .raw matrix.toList, .raw rhs.toList⟩ = c.solve matrix rhs := by
  have hflat : flat ⟨c, .raw matrix.toList, .raw rhs.toList⟩ =
      .ok ⟨matrix.toList, rhs.toList⟩ := rfl
  rw [solve, hflat, Logged.quiet_ok_bind]

namespace Config

variable {c : Config} {matrix rhs : Array Scaled}

/-- **A batch in turn**: one system is solved after the other, and the events of each are put
after those already reported. A solve that leaves the machine takes the batch with it. -/
def solveInTurn (c : Config) : List Event → List (Array Scaled × Array Scaled) →
    Except Fault (List Event × List (Except Error (List Scaled)))
  | log, [] => .ok (log, [])
  | log, (matrix, rhs) :: rest =>
    match (c.solution matrix rhs).outcome with
    | .error (.fault f) => .error f
    | outcome => do
      let (log, outcomes) ← c.solveInTurn (log ++ (c.solution matrix rhs).log) rest
      return (log, outcome :: outcomes)

/-- **Below `2 ^ 32` unknowns a batch goes through**, whatever becomes of its systems. -/
theorem solveInTurn_eq (h : c.dimension < pow2 32) (log : List Event)
    (systems : List (Array Scaled × Array Scaled)) :
    c.solveInTurn log systems =
      .ok (log ++ (systems.map fun s => (c.solution s.1 s.2).log).flatten,
        systems.map fun s => (c.solution s.1 s.2).outcome) := by
  induction systems generalizing log with
  | nil => simp [solveInTurn]
  | cons s rest ih =>
    obtain ⟨matrix, rhs⟩ := s
    have hfault : ∀ f, (c.solution matrix rhs).outcome ≠ .error (.fault f) := by
      intro f hf
      rw [outcome_solution] at hf
      rcases bind_eq_error_iff.mp hf with hf | ⟨report, -, hf⟩
      · exact (ofSolve_of_outcome_error h hf).ne_fault f rfl
      · cases hf
    rw [solveInTurn]
    split
    · next f hf => exact absurd hf (hfault f)
    · rw [ih]
      simp [pure, Except.pure]

/-- **All ways into the solver compute the same thing.** Let a configuration have fewer than
`2 ^ 32` unknowns. Data of the right size is solved as the system that it describes: the
solution is the one of the system, errors included; there is a report exactly when there is a
solution, with the same error otherwise; and the report consists of the factors of the system,
its unknowns and their residual. For data of any size it makes no difference who owns it, or
whether it comes as a problem in raw values; and a batch returns the solution of each of its
systems, in order, and reports its size and then the events of each solution, in order. -/
theorem entry_points_agree (c : Config) (hc : c.dimension < pow2 32) (matrix rhs : Array Scaled) :
    (0 < c.dimension → matrix.size = c.dimension * c.dimension → rhs.size = c.dimension →
      (c.solution matrix rhs).outcome =
        ((c.system matrix rhs).unknowns c.format.arithmetic).map Vector.toList ∧
      (∀ report, (c.solve matrix rhs).outcome = .ok report ↔
        ∃ (S : Stage c.dimension) (x : Column c.dimension) (residual : Nat),
          (c.system matrix rhs).factors c.format.arithmetic = .ok S ∧
          (c.system matrix rhs).unknowns c.format.arithmetic = .ok x ∧
          S.upper.upperResidual x.toList S.rhs.toList c.format.fracBits = .ok residual ∧
          report = ⟨c.dimension, S.upper, S.rhs, S.lower, S.swaps, x, residual⟩) ∧
      (∀ e, (c.solve matrix rhs).outcome = .error e ↔
        (c.system matrix rhs).unknowns c.format.arithmetic = .error e)) ∧
    (∀ owner owner', c.solveOwned ⟨owner, matrix⟩ ⟨owner', rhs⟩ = c.solution matrix rhs) ∧
    Problem.solve ⟨c, .raw matrix.toList, .raw rhs.toList⟩ = c.solve matrix rhs ∧
    ∀ systems,
      c.solveBatch systems =
        (.batch systems.length :: (systems.map fun s => (c.solution s.1 s.2).log).flatten,
          systems.map fun s => (c.solution s.1 s.2).outcome) ∧
      c.solveInTurn [.batch systems.length] systems = .ok (c.solveBatch systems) := by
  refine ⟨fun hpos hmatrix hrhs => ?_, fun owner owner' => rfl, ?_, fun systems => ?_⟩
  · have hlt : matrix.size < pow2 64 := by
      rw [hmatrix, show pow2 64 = pow2 32 * pow2 32 from rfl]
      exact Nat.mul_self_lt_mul_self hc
    have h : c.Describes matrix rhs := ⟨hpos, hmatrix, hlt, hrhs⟩
    exact ⟨h.outcome_solution_eq, fun report => h.outcome_solve_eq_ok_iff,
      fun e => h.outcome_solve_eq_error_iff⟩
  · exact Problem.solve_raw c matrix rhs
  · have hbatch : c.solveBatch systems =
        (.batch systems.length :: (systems.map fun s => (c.solution s.1 s.2).log).flatten,
          systems.map fun s => (c.solution s.1 s.2).outcome) := by
      rw [solveBatch, List.flatMap_def, List.map_map, List.map_map]
      rfl
    refine ⟨hbatch, ?_⟩
    rw [hbatch, solveInTurn_eq hc]
    rfl

/-- A configuration for two unknowns: four fractional bits, checked, reporting exchanges. -/
def jointConfig : Config where
  dimension := 2
  format := {
    fracBits := 4
    rounding := .truncate
    overflow := .checked
    fracBits_le := four_le_maxFracBits }
  verbosity := 1

/-- A system with a solution, a singular one, and one with a right-hand side too long. -/
def jointSystems : List (Array Scaled × Array Scaled) :=
  [(#[⟨16⟩, ⟨16⟩, ⟨32⟩, ⟨16⟩], #[⟨48⟩, ⟨64⟩]), (#[⟨0⟩, ⟨1⟩, ⟨0⟩, ⟨1⟩], #[⟨2⟩, ⟨1⟩]),
    (#[⟨16⟩, ⟨0⟩, ⟨0⟩, ⟨16⟩], #[⟨1⟩, ⟨2⟩, ⟨3⟩])]

theorem entry_points_agree_jointly :
    jointConfig.dimension < pow2 32 ∧
    (∃ report, (jointConfig.solve #[⟨16⟩, ⟨16⟩, ⟨32⟩, ⟨16⟩] #[⟨48⟩, ⟨64⟩]).outcome = .ok report ∧
      report.solution.toList = [⟨16⟩, ⟨32⟩] ∧ report.swaps = [⟨0, 1⟩]) ∧
    (jointConfig.solution #[⟨16⟩, ⟨16⟩, ⟨32⟩, ⟨16⟩] #[⟨48⟩, ⟨64⟩]).outcome =
      .ok [⟨16⟩, ⟨32⟩] ∧
    (∃ log, jointConfig.solveInTurn [.batch 3] jointSystems = .ok (.batch 3 :: log,
      [.ok [⟨16⟩, ⟨32⟩], .error .divisionByZero,
        .error (.dimensionMismatch .rightHandSide 2 3)])) := by
  have hc : jointConfig.dimension < pow2 32 := by decide
  have hview : ((jointConfig.system #[⟨16⟩, ⟨16⟩, ⟨32⟩, ⟨16⟩] #[⟨48⟩, ⟨64⟩]).unknowns
      jointConfig.format.arithmetic) = .ok #v[⟨16⟩, ⟨32⟩] := by
    decide +kernel
  have hfactors : ((jointConfig.system #[⟨16⟩, ⟨16⟩, ⟨32⟩, ⟨16⟩] #[⟨48⟩, ⟨64⟩]).factors
      jointConfig.format.arithmetic).toOption.map Stage.swaps = some [⟨0, 1⟩] := by
    decide +kernel
  have hbatch : jointSystems.map (fun s => (jointConfig.solution s.1 s.2).outcome) =
      [.ok [⟨16⟩, ⟨32⟩], .error .divisionByZero,
        .error (.dimensionMismatch .rightHandSide 2 3)] := by
    decide +kernel
  obtain ⟨S, hS, hswaps⟩ := exists_ok_of_view hfactors
  obtain ⟨hflat, -, -, hsystems⟩ := entry_points_agree jointConfig hc
    #[⟨16⟩, ⟨16⟩, ⟨32⟩, ⟨16⟩] #[⟨48⟩, ⟨64⟩]
  obtain ⟨hsolution, hreport, herror⟩ := hflat (by decide) (by decide) (by decide)
  obtain ⟨hconcat, hturn⟩ := hsystems jointSystems
  rw [hview] at hsolution
  refine ⟨hc, ?_, hsolution, ?_⟩
  · cases hsolve : (jointConfig.solve #[⟨16⟩, ⟨16⟩, ⟨32⟩, ⟨16⟩] #[⟨48⟩, ⟨64⟩]).outcome with
    | error e =>
      -- the same error would be that of the system
      cases hview.symm.trans ((herror e).mp hsolve)
    | ok report =>
      obtain ⟨T, x, residual, hT, hx, -, rfl⟩ := (hreport report).mp hsolve
      obtain rfl : S = T := Except.ok.inj (hS.symm.trans hT)
      obtain rfl := Except.ok.inj (hview.symm.trans hx)
      exact ⟨_, rfl, rfl, hswaps⟩
  · rw [hconcat, hbatch] at hturn
    exact ⟨_, hturn⟩

end Config

end ScaledGauss

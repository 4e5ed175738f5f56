import ScaledGauss.Proofs.CommandLine.Arguments
import ScaledGauss.Proofs.CommandLine.StatedProblem
import ScaledGauss.Proofs.Guarded.Safety
import ScaledGauss.Proofs.RoundTrip

/-!
# The command line computes what the library computes

Two ways lead to a problem, numbers come in two forms, and each part of the format may be overridden
or not. This file says where the three meet: **a run is the solve of the problem that its options
lead to, with its format overridden and nothing else changed**
(`ScaledGauss.CommandLine.run_agrees_with_solve`).

What an override does to a format is said part by part
(`ScaledGauss.CommandLine.Options.Overrides`), without the order in which the parts are overridden;
the order does not matter, as only the scale can be refused.

**What comes first** does matter. A scale that is refused is reported even if no real of the problem
converts, or if the system has no solution. The failure alone does not say whether a conversion was
tried before, so a run is also described over *given* operations
(`ScaledGauss.CommandLine.computeOver`): the conversion of a real and the solve of raw data are
taken from outside, in any monad. With the operations of the library this is the run
(`ScaledGauss.CommandLine.compute_eq_computeOver`). With operations that leave a trace there is none
where the scale is refused; where it is not, all that is done is done in the overridden format.
-/

namespace ScaledGauss

/-! ### Another format for the same numbers -/

/-- The same configuration with another format. -/
def Config.withFormat (c : Config) (f : Format) : Config := { c with format := f }

/-- The same problem with another format: reals stay reals and raw values stay raw values. -/
def Problem.withFormat (p : Problem) (f : Format) : Problem :=
  { p with config := p.config.withFormat f }

theorem Format.eq_of_parts {f g : Format} (hbits : f.fracBits = g.fracBits)
    (hrounding : f.rounding = g.rounding) (hoverflow : f.overflow = g.overflow) : f = g := by
  cases f
  cases g
  obtain rfl := hbits
  obtain rfl := hrounding
  obtain rfl := hoverflow
  rfl

theorem Format.withFracBits_eq_ok_iff {f g : Format} {fracBits : Nat} :
    f.withFracBits fracBits = .ok g ↔
      g.fracBits = fracBits ∧ g.rounding = f.rounding ∧ g.overflow = f.overflow := by
  rw [withFracBits]
  split_ifs with hle
  · rw [Except.ok.injEq]
    constructor
    · rintro rfl
      exact ⟨rfl, rfl, rfl⟩
    · rintro ⟨rfl, hrounding, hoverflow⟩
      exact eq_of_parts rfl hrounding.symm hoverflow.symm
  · constructor
    · intro h
      cases h
    · rintro ⟨rfl, -, -⟩
      exact absurd g.fracBits_le hle

namespace Values

variable {f : Format} {v : Values} {raws : List Scaled} {e : Error}

/-- The numbers that are to be converted. -/
def reals : Values → List Binary64
  | .real values => values
  | .raw _ => []

/-- **Numbers in raw values**: reals are converted in the format, raw values are taken as they
are. -/
inductive ConvertsTo (f : Format) : Values → List Scaled → Prop
  /-- Each real has its raw value in the format. -/
  | real {values : List Binary64} {raws : List Scaled} :
    List.Forall₂ (fun x a => f.ofReal x = .ok a) values raws → ConvertsTo f (.real values) raws
  /-- Raw values do not depend on the format. -/
  | raw (raws : List Scaled) : ConvertsTo f (.raw raws) raws

theorem scaled_eq_ok_iff : v.scaled f = .ok raws ↔ v.ConvertsTo f raws := by
  cases v with
  | real values =>
    rw [scaled, mapM_eq_ok_iff]
    constructor
    · exact .real
    · intro h
      cases h with
      | real h => exact h
  | raw values =>
    rw [scaled, Except.ok.injEq]
    constructor
    · rintro rfl
      exact .raw values
    · rintro ⟨⟩
      rfl

theorem scaled_eq_error_iff_reals :
    v.scaled f = .error e ↔ FirstFails (fun x e => f.ofReal x = .error e) v.reals e := by
  cases v with
  | real values => exact mapM_eq_error_iff
  | raw values => exact ⟨nofun, fun h => (not_firstFails_nil h).elim⟩

end Values

namespace Problem

variable (p : Problem) {matrix rhs : List Scaled} {e : Error}

/-- Numbers that convert are solved in raw values. -/
theorem outcome_solve_of_convertsTo (hmatrix : p.matrix.ConvertsTo p.config.format matrix)
    (hrhs : p.rhs.ConvertsTo p.config.format rhs) :
    p.solve.outcome = (p.config.solve matrix.toArray rhs.toArray).outcome := by
  rw [solve, flat, Values.scaled_eq_ok_iff.mpr hmatrix, Values.scaled_eq_ok_iff.mpr hrhs]
  rfl

/-- Otherwise the first real that does not convert decides the error. -/
theorem outcome_solve_of_firstFails
    (h : FirstFails (fun x e => p.config.format.ofReal x = .error e)
      (p.matrix.reals ++ p.rhs.reals) e) :
    p.solve.outcome = .error e := by
  have hflat : p.flat = .error e :=
    (pair_eq_error_iff_firstFails (fun _ => Values.scaled_eq_error_iff_reals)
      fun _ => Values.scaled_eq_error_iff_reals).mpr h
  rw [solve, hflat]
  rfl

end Problem

/-! ### Given operations -/

/-- **What is done for a run** once its problem is configured, in some monad. -/
structure Operations (m : Type → Type) where
  /-- A real is converted. -/
  convert : Format → Binary64 → m Scaled
  /-- A system in raw values is solved. -/
  solve : Config → Array Scaled → Array Scaled → m Report

/-- The operations of the library. -/
def Operations.library : Operations (Except Error) where
  convert := Format.ofReal
  solve c matrix rhs := (c.solve matrix rhs).outcome

section Over

variable {m : Type → Type} [Monad m]

/-- The raw values in a format, over given operations. -/
def Values.scaledOver (ops : Operations m) (f : Format) : Values → m (List Scaled)
  | .real values => values.mapM (ops.convert f)
  | .raw values => pure values

/-- **The solution of a problem** over given operations. -/
def Problem.solveOver (ops : Operations m) (p : Problem) : m Report := do
  let matrix ← p.matrix.scaledOver ops p.config.format
  let rhs ← p.rhs.scaledOver ops p.config.format
  ops.solve p.config matrix.toArray rhs.toArray

end Over

theorem Values.scaledOver_library (f : Format) (v : Values) :
    v.scaledOver .library f = v.scaled f := by
  cases v <;> rfl

theorem Problem.solveOver_library (p : Problem) : p.solveOver .library = p.solve.outcome := by
  rw [solveOver, Values.scaledOver_library, Values.scaledOver_library, solve, flat,
    Logged.outcome_bind, Logged.outcome_quiet, bind_assoc]
  refine congrArg _ (funext fun matrix => ?_)
  rw [bind_assoc]
  rfl

namespace CommandLine

variable {files : String → Except PathError ByteArray} {texts : List String} {o : Options}
variable {p : Problem} {f g : Format} {fracBits : Nat}

/-! ### Overrides -/

/-- **A format that is overridden**: each part is the one given, or else the one there was. -/
structure Options.Overrides (o : Options) (f g : Format) : Prop where
  fracBits : g.fracBits = o.fracBits.getD f.fracBits
  rounding : g.rounding = o.rounding.getD f.rounding
  overflow : g.overflow = o.overflow.getD f.overflow

/-- **A format can be overridden** unless the scale that is given is not supported. -/
theorem Options.exists_overrides_iff :
    (∃ g, o.Overrides f g) ↔ ∀ fracBits, o.fracBits = some fracBits → fracBits ≤ maxFracBits := by
  constructor
  · rintro ⟨g, h, -, -⟩ fracBits hbits
    rw [hbits, Option.getD_some] at h
    exact h ▸ g.fracBits_le
  · intro h
    have hle : o.fracBits.getD f.fracBits ≤ maxFracBits := by
      cases hbits : o.fracBits with
      | none => exact f.fracBits_le
      | some fracBits => exact h fracBits hbits
    exact ⟨⟨_, o.rounding.getD f.rounding, o.overflow.getD f.overflow, hle⟩, rfl, rfl, rfl⟩

/-- The scale is overridden first, and the policies of what is made of it then. -/
theorem override_eq :
    override o f = o.fracBits.elim (.ok f) f.withFracBits >>= fun scaled =>
      .ok { scaled with
        rounding := o.rounding.getD scaled.rounding
        overflow := o.overflow.getD scaled.overflow } := by
  rw [override]
  cases o.fracBits <;> cases o.rounding <;> cases o.overflow <;> rfl

theorem rescaled_eq_ok_iff :
    o.fracBits.elim (.ok f) f.withFracBits = .ok g ↔
      g.fracBits = o.fracBits.getD f.fracBits ∧ g.rounding = f.rounding ∧
        g.overflow = f.overflow := by
  cases o.fracBits with
  | none =>
    rw [Option.elim_none, Except.ok.injEq]
    constructor
    · rintro rfl
      exact ⟨rfl, rfl, rfl⟩
    · rintro ⟨hbits, hrounding, hoverflow⟩
      exact (Format.eq_of_parts hbits hrounding hoverflow).symm
  | some fracBits => exact Format.withFracBits_eq_ok_iff

/-- **The overrides are applied** part by part. -/
theorem override_eq_ok_iff : override o f = .ok g ↔ o.Overrides f g := by
  simp only [override_eq, bind_eq_ok_iff, rescaled_eq_ok_iff]
  constructor
  · rintro ⟨scaled, ⟨hbits, hrounding, hoverflow⟩, h⟩
    cases h
    exact ⟨hbits, hrounding ▸ rfl, hoverflow ▸ rfl⟩
  · rintro ⟨hbits, hrounding, hoverflow⟩
    refine ⟨{ g with rounding := f.rounding, overflow := f.overflow }, ⟨hbits, rfl, rfl⟩, ?_⟩
    exact congrArg Except.ok (Format.eq_of_parts rfl hrounding.symm hoverflow.symm)

theorem override_eq_error (hbits : o.fracBits = some fracBits) (h : maxFracBits < fracBits) :
    override o f = .error (.unsupportedScale fracBits) := by
  have hrefused := (Format.scaledTo_override o f).refused
  rw [hbits, Option.getD_some] at hrefused
  exact hrefused h

/-! ### The problem as configured -/

/-- The problem as configured. -/
def configured (files : String → Except PathError ByteArray) (o : Options) :
    Except Failure Problem := do
  let stated ← problemOf files o
  (configure o stated).mapError .misconfigured

/-- **The problem as configured, and its report**, over given operations. Only what fails before
them is a failure of the run; what fails in them is left to the monad. -/
def computeOver {m : Type → Type} [Monad m] (ops : Operations m)
    (files : String → Except PathError ByteArray) (o : Options) :
    m (Except Failure (Problem × Report)) :=
  match configured files o with
  | .error failure => pure (.error failure)
  | .ok p => do
    let report ← p.solveOver ops
    return .ok (p, report)

/-- A run solves its problem as configured. -/
theorem compute_eq_configured :
    compute files o = configured files o >>= fun p =>
      (p.solve.outcome.mapError .unsolved).map fun report => (p, report) := by
  rw [compute, configured, bind_assoc]
  refine congrArg _ (funext fun stated => congrArg _ (funext fun p => ?_))
  cases p.solve.outcome <;> rfl

/-- **What is computed** is computed over the operations of the library. -/
theorem compute_eq_computeOver :
    compute files o = ((computeOver .library files o).mapError .unsolved) >>= id := by
  rw [compute_eq_configured, computeOver]
  cases configured files o with
  | error failure => rfl
  | ok p =>
    simp only [ok_bind, Problem.solveOver_library]
    cases p.solve.outcome <;> rfl

section Obtained

variable (hc : o.input = none ∨ o.matrix = [] ∧ o.rhs = []) (hp : o.Obtains files p)
include hc hp

/-- **The problem is configured** by its overrides: it has unknowns, so nothing else is refused. -/
theorem configured_of_overrides (hf : o.Overrides p.config.format f) :
    configured files o = .ok (p.withFormat f) := by
  have hvalid : (p.config.withFormat f).validate = .ok () :=
    if_neg (Nat.one_le_iff_ne_zero.mp hp.pos)
  have hconfigure : configure o p = .ok (p.withFormat f) := by
    rw [configure, override_eq_ok_iff.mpr hf, ok_bind]
    exact congrArg (· >>= fun _ => _) hvalid
  rw [configured, (problemOf_eq_ok_iff hc).mpr hp, ok_bind, hconfigure]
  rfl

/-- **A scale that is not supported** is refused before the configuration is looked at. -/
theorem configured_of_unsupportedScale (hbits : o.fracBits = some fracBits)
    (h : maxFracBits < fracBits) :
    configured files o = .error (.misconfigured (.unsupportedScale fracBits)) := by
  rw [configured, (problemOf_eq_ok_iff hc).mpr hp, ok_bind, configure, override_eq_error hbits h]
  rfl

end Obtained

/-! ### The run -/

/-- How a run ends with an outcome: a report is printed in its format. -/
def ending (o : Options) (f : Format) : Except Error Report → Outcome
  | .ok report => .printed (render o f report)
  | .error cause => .failed (.unsolved cause)

/-- **What a run comes to**: the problem that it solves, and the outcome. -/
structure Reports (files : String → Except PathError ByteArray) (texts : List String) (o : Options)
    (p : Problem) (outcome : Except Error Report) : Prop where
  computes :
    compute files o = (outcome.mapError Failure.unsolved).map fun report => (p, report)
  ends : run files texts = ending o p.config.format outcome

section Runs

variable (given : o.Given texts)
include given

theorem run_of_compute_error {e : Failure} (h : compute files o = .error e) :
    run files texts = .failed e := by
  rw [run, Options.ofArguments?_eq_some_iff.mpr given]
  simp only [h]

theorem reports_of_compute {outcome : Except Error Report}
    (h : compute files o = (outcome.mapError Failure.unsolved).map fun report => (p, report)) :
    Reports files texts o p outcome := by
  refine ⟨h, ?_⟩
  rw [run, Options.ofArguments?_eq_some_iff.mpr given]
  cases outcome <;> simp only [h] <;> rfl

/-- **A run solves the problem obtained**, with its format overridden. -/
theorem reports_of_overrides (hp : o.Obtains files p) (hf : o.Overrides p.config.format f) :
    Reports files texts o (p.withFormat f) (p.withFormat f).solve.outcome := by
  refine reports_of_compute given ?_
  rw [compute_eq_configured, configured_of_overrides given.consistent hp hf, ok_bind]

theorem run_of_unsupportedScale (hp : o.Obtains files p) (hbits : o.fracBits = some fracBits)
    (h : maxFracBits < fracBits) :
    run files texts = .failed (.misconfigured (.unsupportedScale fracBits)) := by
  refine run_of_compute_error given ?_
  rw [compute_eq_configured, configured_of_unsupportedScale given.consistent hp hbits h]
  rfl

/-- A run that has its problem does not fail for a number that is no raw value. -/
theorem run_ne_notRaw (hp : o.Obtains files p) (x : Binary64) :
    run files texts ≠ .failed (.notRaw x) := by
  by_cases hoverrides : ∃ f, o.Overrides p.config.format f
  · obtain ⟨f, hf⟩ := hoverrides
    rw [(reports_of_overrides given hp hf).ends]
    cases (p.withFormat f).solve.outcome <;> simp [ending]
  · simp only [Options.exists_overrides_iff, not_forall, Nat.not_le] at hoverrides
    obtain ⟨fracBits, hbits, h⟩ := hoverrides
    rw [run_of_unsupportedScale given hp hbits h]
    simp

/-- **The first number that is no integer of 32 bits** is reported. -/
theorem run_of_refusedRaw {n : Nat} (hs : o.Square n) (hraw : o.raw = true) {e : Failure}
    (h : FirstFails RefusedRaw (o.matrix ++ o.rhs) e) :
    run files texts = .failed e := by
  have hinput : o.input = none :=
    given.consistent.resolve_right fun hnil => hs.ne_nil.1 hnil.1
  refine run_of_compute_error given ?_
  rw [compute, (problemOf_eq_error_iff_of_raw hinput hs hraw).mpr h]
  rfl

/-- **Raw values are accepted** exactly if they are integers of 32 bits. -/
theorem run_accepts_raw_iff {n : Nat} (hs : o.Square n) (hraw : o.raw = true) :
    (∀ x, run files texts ≠ .failed (.notRaw x)) ↔ ∀ x ∈ o.matrix ++ o.rhs, x.IsInt32 := by
  constructor
  · intro haccepted x hx
    by_contra hnot
    have hrefused : ∃ y ∈ o.matrix ++ o.rhs, ∃ e, RefusedRaw y e := ⟨x, hx, _, hnot, rfl⟩
    obtain ⟨e, hfirst⟩ := exists_firstFails_iff.mpr hrefused
    have hrun : run files texts = .failed e := run_of_refusedRaw given hs hraw hfirst
    obtain ⟨-, y, -, -, ⟨-, rfl⟩, -⟩ := hfirst
    exact haccepted y hrun
  · intro hall
    obtain ⟨matrix, rhs, hmatrix, hrhs⟩ := forall_isInt32_iff.mp hall
    exact run_ne_notRaw given (.raws hs hraw hmatrix hrhs)

end Runs

/-- **The command line computes what the library computes.** Let an argument list give options.
They override a format unless they give a scale that is not supported.

* Numbers of a square system that are to be raw values are accepted exactly if all of them are
  integers of 32 bits, and otherwise the first one that is none is the failure. If they are
  accepted, the run is the solve of these integers in the standard format with its overrides.
* Numbers of a square system that are reals are those of a problem in this format, and the run is
  the solve of that problem.
* For a file that is loaded, the run is the solve of its problem with the format overridden.

Whichever problem it is, its reals are converted in the overridden format, the first that does not
convert deciding the error, and its raw values are taken as they are. Over any operations, nothing
but the solve of the problem in this format is done; and if the scale is not supported, nothing is
done at all, and this is the failure. What a run computes is computed over the operations of the
library. -/
theorem run_agrees_with_solve (files : String → Except PathError ByteArray) (texts : List String)
    (o : Options) (given : o.Given texts) :
    (∀ f, (∃ g, o.Overrides f g) ↔
      ∀ fracBits, o.fracBits = some fracBits → fracBits ≤ maxFracBits) ∧
    (∀ n, o.Square n → o.raw = true →
      ((∀ x, run files texts ≠ .failed (.notRaw x)) ↔ ∀ x ∈ o.matrix ++ o.rhs, x.IsInt32) ∧
      (∀ e, FirstFails RefusedRaw (o.matrix ++ o.rhs) e → run files texts = .failed e) ∧
      ((∀ x ∈ o.matrix ++ o.rhs, x.IsInt32) ↔
        ∃ matrix rhs, AreRaw o.matrix matrix ∧ AreRaw o.rhs rhs) ∧
      ∀ matrix rhs, AreRaw o.matrix matrix → AreRaw o.rhs rhs →
        ∀ f, o.Overrides .standard f →
          Reports files texts o ⟨(Config.ofDimension n).withFormat f, .raw matrix, .raw rhs⟩
            (((Config.ofDimension n).withFormat f).solve matrix.toArray rhs.toArray).outcome) ∧
    (∀ n, o.Square n → o.raw = false → ∀ f, o.Overrides .standard f →
      let p : Problem := ⟨(Config.ofDimension n).withFormat f, .real o.matrix, .real o.rhs⟩
      Reports files texts o p p.solve.outcome) ∧
    (∀ path p, o.input = some path → Problem.load (files path) = .ok p →
      ∀ f, o.Overrides p.config.format f →
        Reports files texts o (p.withFormat f) (p.withFormat f).solve.outcome) ∧
    (∀ p, o.Obtains files p →
      (∀ f, o.Overrides p.config.format f →
        (∀ matrix rhs, p.matrix.ConvertsTo f matrix → p.rhs.ConvertsTo f rhs →
          Reports files texts o (p.withFormat f)
            ((p.config.withFormat f).solve matrix.toArray rhs.toArray).outcome) ∧
        (∀ e, FirstFails (fun x e => f.ofReal x = .error e) (p.matrix.reals ++ p.rhs.reals) e →
          Reports files texts o (p.withFormat f) (.error e)) ∧
        ∀ (m : Type → Type) [Monad m] (ops : Operations m),
          computeOver ops files o = do
            let report ← (p.withFormat f).solveOver ops
            return .ok (p.withFormat f, report)) ∧
      ∀ fracBits, o.fracBits = some fracBits → maxFracBits < fracBits →
        run files texts = .failed (.misconfigured (.unsupportedScale fracBits)) ∧
        ∀ (m : Type → Type) [Monad m] (ops : Operations m),
          computeOver ops files o =
            pure (.error (.misconfigured (.unsupportedScale fracBits)))) ∧
    compute files o = ((computeOver .library files o).mapError .unsolved) >>= id := by
  refine ⟨fun f => Options.exists_overrides_iff, fun n hs hraw => ⟨?_, ?_, ?_, ?_⟩, ?_, ?_, ?_, ?_⟩
  · exact run_accepts_raw_iff given hs hraw
  · exact fun e => run_of_refusedRaw given hs hraw
  · exact forall_isInt32_iff
  · intro matrix rhs hmatrix hrhs f hf
    rw [← Problem.outcome_solve_of_convertsTo ⟨_, .raw matrix, .raw rhs⟩ (.raw _) (.raw _)]
    exact reports_of_overrides given (.raws hs hraw hmatrix hrhs) hf
  · exact fun n hs hraw f hf => reports_of_overrides given (.reals hs hraw) hf
  · exact fun path p hinput hload f hf => reports_of_overrides given (.loaded hinput hload) hf
  · refine fun p hp => ⟨fun f hf => ⟨?_, ?_, ?_⟩, fun fracBits hbits h => ⟨?_, ?_⟩⟩
    · intro matrix rhs hmatrix hrhs
      have hreports := reports_of_overrides given hp hf
      rwa [(p.withFormat f).outcome_solve_of_convertsTo hmatrix hrhs] at hreports
    · intro e he
      have hreports := reports_of_overrides given hp hf
      rwa [(p.withFormat f).outcome_solve_of_firstFails he] at hreports
    · intro m _ ops
      rw [computeOver, configured_of_overrides given.consistent hp hf]
    · exact run_of_unsupportedScale given hp hbits h
    · intro m _ ops
      rw [computeOver, configured_of_unsupportedScale given.consistent hp hbits h]
  · exact compute_eq_computeOver

/-- Two equations in integers, `x + y = 3` and `y - x = 1`. -/
def integerTexts : List String :=
  ["--matrix", "1,1,-1,1", "--rhs=3,1", "--raw", "--frac-bits", "0", "--overflow=checked"]

/-- The options of two equations in integers. -/
def integerOptions : Options where
  matrix := [.ofDyadic false 1 0, .ofDyadic false 1 0, .ofDyadic true 1 0, .ofDyadic false 1 0]
  rhs := [.ofDyadic false 3 0, .ofDyadic false 1 0]
  raw := true
  fracBits := some 0
  overflow := some .checked

theorem given_integerTexts : integerOptions.Given integerTexts := by
  have hmatrix : AreNumbers "1,1,-1,1" integerOptions.matrix :=
    ⟨["1", "1", "-1", "1"], by decide, by decide, by decide +kernel, by
      simp only [integerOptions, List.forall₂_cons]
      decide +kernel⟩
  have hrhs : AreNumbers "3,1" integerOptions.rhs :=
    ⟨["3", "1"], by decide, by decide, by decide +kernel, by
      simp only [integerOptions, List.forall₂_cons]
      decide +kernel⟩
  have hread : Written [.setting .matrix "1,1,-1,1", .setting .rhs "3,1", .flag .raw,
      .setting .fracBits "0", .setting .overflow "checked"] integerTexts :=
    arguments?_eq_some_iff.mp (by decide +kernel)
  refine ⟨⟨_, hread, ?_⟩, .inl rfl⟩
  exact {
    input := .nil
    matrix := ⟨[_], .cons hmatrix .nil, rfl⟩
    rhs := ⟨[_], .cons hrhs .nil, rfl⟩
    raw := rfl
    fracBits := .cons (by decide +kernel) .nil
    rounding := .nil
    overflow := .cons rfl .nil
    showSteps := rfl
    json := rfl }

/-- One equation with a half, which is no integer, at a scale that is not supported. -/
def halfTexts : List String := ["--raw", "--matrix=1", "--rhs", "0.5", "--frac-bits=31"]

/-- The options of one equation with a half. -/
def halfOptions : Options where
  matrix := [.ofDyadic false 1 0]
  rhs := [.ofDyadic false 1 1]
  raw := true
  fracBits := some 31

theorem given_halfTexts : halfOptions.Given halfTexts := by
  have hmatrix : AreNumbers "1" halfOptions.matrix :=
    areNumbers_singleton (by decide) (by decide +kernel)
  have hrhs : AreNumbers "0.5" halfOptions.rhs :=
    areNumbers_singleton (by decide) (by decide +kernel)
  have hread : Written [.flag .raw, .setting .matrix "1", .setting .rhs "0.5",
      .setting .fracBits "31"] halfTexts :=
    arguments?_eq_some_iff.mp (by decide +kernel)
  refine ⟨⟨_, hread, ?_⟩, .inl rfl⟩
  exact {
    input := .nil
    matrix := ⟨[_], .cons hmatrix .nil, rfl⟩
    rhs := ⟨[_], .cons hrhs .nil, rfl⟩
    raw := rfl
    fracBits := .cons (by decide +kernel) .nil
    rounding := .nil
    overflow := .nil
    showSteps := rfl
    json := rfl }

/-- A file, and a number of fractional bits to use instead of its own. -/
def storedTexts (bits : String) : List String := ["--input=system.json", "--frac-bits", bits]

/-- The options of a file with another scale. -/
def storedOptions (fracBits : Nat) : Options where
  input := some "system.json"
  fracBits := some fracBits

theorem given_storedTexts (bits : String) (fracBits : Nat) (hbits : ¬looksLikeArgument bits)
    (hread : natural? bits = some fracBits) :
    (storedOptions fracBits).Given (storedTexts bits) := by
  have hwritten : Written [.setting .input "system.json", .setting .fracBits bits]
      (storedTexts bits) :=
    .cons (.attached .input "system.json") (.cons (.detached .fracBits (.inr hbits)) .nil)
  refine ⟨⟨_, hwritten, ?_⟩, .inr ⟨rfl, rfl⟩⟩
  exact {
    input := .cons rfl .nil
    matrix := ⟨[], .nil, rfl⟩
    rhs := ⟨[], .nil, rfl⟩
    raw := rfl
    fracBits := .cons hread .nil
    rounding := .nil
    overflow := .nil
    showSteps := rfl
    json := rfl }

/-- A file with the real two and a half as its matrix and the raw value three as its right-hand
side. -/
def storedText : String :=
  "\x7b\"config\":\x7b\"dimension\":1\x7d," ++
    "\"matrix\":\x7b\"real\":[2.5]\x7d,\"rhs\":\x7b\"raw\":[3]\x7d\x7d"

/-- The same file is everywhere. -/
def storedFiles : String → Except PathError ByteArray := fun _ => .ok storedText.toUTF8

/-- The problem in the file. -/
def storedProblem : Problem where
  config := .ofDimension 1
  matrix := .real [.ofDyadic false 5 1]
  rhs := .raw [⟨3⟩]

theorem load_storedFiles (path : String) : Problem.load (storedFiles path) = .ok storedProblem := by
  have htext : (Problem.ofText storedText).toOption = some storedProblem := by decide +kernel
  rw [storedFiles, Problem.load, Stored.textOf_toUTF8, ok_bind]
  cases h : Problem.ofText storedText with
  | ok p => simpa [h, Except.toOption] using htext
  | error e => simp [h, Except.toOption] at htext

/-- Integers are solved as they are; a half is refused before its scale is; a real in a file is
rounded to an integer where no fractional bits are asked for, and not converted at all where
thirty-one are. -/
theorem run_agrees_with_solve_four_runs :
    (∃ report, run storedFiles integerTexts =
        .printed (render integerOptions (Format.integer.withOverflow .checked) report) ∧
      report.solution.toList = [⟨1⟩, ⟨2⟩]) ∧
    run storedFiles halfTexts = .failed (.notRaw (.ofDyadic false 1 1)) ∧
    (∃ report, run storedFiles (storedTexts "0") =
        .printed (render (storedOptions 0) .integer report) ∧
      (((Config.ofDimension 1).withFormat .integer).solve #[⟨3⟩] #[⟨3⟩]).outcome = .ok report ∧
      report.solution.toList = [⟨1⟩]) ∧
    run storedFiles (storedTexts "31") = .failed (.misconfigured (.unsupportedScale 31)) ∧
    computeOver ⟨fun _ _ => none, fun _ _ _ => none⟩ storedFiles (storedOptions 31) =
      some (.error (.misconfigured (.unsupportedScale 31))) := by
  refine ⟨?_, ?_, ?_, ?_⟩
  · obtain ⟨-, hraw, -⟩ := run_agrees_with_solve storedFiles _ _ given_integerTexts
    obtain ⟨-, -, -, hreports⟩ := hraw 2 ⟨by decide, rfl, rfl⟩ rfl
    have hmatrix : AreRaw integerOptions.matrix [⟨1⟩, ⟨1⟩, ⟨-1⟩, ⟨1⟩] :=
      rawList_eq_ok_iff.mp (by decide +kernel)
    have hrhs : AreRaw integerOptions.rhs [⟨3⟩, ⟨1⟩] := rawList_eq_ok_iff.mp (by decide +kernel)
    have hf : integerOptions.Overrides .standard (Format.integer.withOverflow .checked) :=
      ⟨rfl, rfl, rfl⟩
    have hsolution : ((((Config.ofDimension 2).withFormat
        (Format.integer.withOverflow .checked)).solve
        #[⟨1⟩, ⟨1⟩, ⟨-1⟩, ⟨1⟩] #[⟨3⟩, ⟨1⟩]).outcome >>= fun report =>
          .ok report.solution.toList) = .ok [⟨1⟩, ⟨2⟩] := by
      decide +kernel
    obtain ⟨report, hreport, hlist⟩ := bind_eq_ok_iff.mp hsolution
    have hends := (hreports _ _ hmatrix hrhs _ hf).ends
    rw [hreport] at hends
    exact ⟨report, hends, Except.ok.inj hlist⟩
  · obtain ⟨-, hraw, -⟩ := run_agrees_with_solve storedFiles _ _ given_halfTexts
    obtain ⟨-, hfirst, -⟩ := hraw 1 ⟨by decide, rfl, rfl⟩ rfl
    exact hfirst _ (rawList_eq_error_iff.mp (by decide +kernel))
  · obtain ⟨-, -, -, -, hobtained, -⟩ := run_agrees_with_solve storedFiles _ _
      (given_storedTexts "0" 0 (by decide) (by decide +kernel))
    have hf : (storedOptions 0).Overrides .standard .integer := ⟨rfl, rfl, rfl⟩
    have hreal : Format.integer.ofReal (.ofDyadic false 5 1) = .ok ⟨3⟩ := by decide +kernel
    obtain ⟨hreports, -⟩ := (hobtained _ (.loaded rfl (load_storedFiles _))).1 _ hf
    have hsolution : ((((Config.ofDimension 1).withFormat .integer).solve
        #[⟨3⟩] #[⟨3⟩]).outcome >>= fun report => .ok report.solution.toList) = .ok [⟨1⟩] := by
      decide +kernel
    obtain ⟨report, hreport, hlist⟩ := bind_eq_ok_iff.mp hsolution
    have hends := (hreports _ _ (.real (.cons hreal .nil)) (.raw _)).ends
    refine ⟨report, hends.trans ?_, hreport, Except.ok.inj hlist⟩
    exact congrArg (ending (storedOptions 0) .integer) hreport
  · obtain ⟨-, -, -, -, hobtained, -⟩ := run_agrees_with_solve storedFiles _ _
      (given_storedTexts "31" 31 (by decide) (by decide +kernel))
    obtain ⟨hrun, hover⟩ :=
      (hobtained _ (.loaded rfl (load_storedFiles _))).2 31 rfl (by decide)
    exact ⟨hrun, hover Option ⟨fun _ _ => none, fun _ _ _ => none⟩⟩

end CommandLine

end ScaledGauss

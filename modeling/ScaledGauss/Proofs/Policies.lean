import ScaledGauss.Proofs.Solve

/-!
# The overflow policies

Three solves of the same data that differ in their overflow policy alone. A checked format
answers exactly where a wrapping one does with a result in range
(`ScaledGauss.Format.apply_checked_iff_wrapping`), and an answer of a checked format is the
answer of all three (`ScaledGauss.Format.apply_of_checked`). Since a plan is the same for
every arithmetic, what holds of one answer holds of a whole run, however the run depends on
the answers: the first call on which two policies differ is one whose rounded result is out
of range, and a checked solve ends there.
-/

namespace ScaledGauss

open Plan

/-! ### One answer -/

namespace Format

variable {f : Format} {op : Op} {left right r : Scaled}

/-- **The answers of a checked format** are those of the wrapping one whose rounded result
is in range. -/
theorem apply_checked_iff_wrapping :
    (f.withOverflow .checked).arithmetic.apply op left right = .ok r ↔
      (f.withOverflow .wrapping).arithmetic.apply op left right = .ok r ∧
        Scaled.InRange (f.exact op left right) := by
  have hexact : ∀ o, (f.withOverflow o).exact op left right = f.exact op left right :=
    fun _ => rfl
  rw [apply_eq_narrow, apply_eq_narrow, hexact, hexact]
  by_cases h0 : op = .divide ∧ right.val = 0
  · simp [h0, divideByZero, withOverflow]
  · rw [if_neg h0, if_neg h0, narrow_checked rfl]
    by_cases hr : Scaled.InRange (f.exact op left right)
    · rw [if_pos hr, narrow_of_inRange _ _ hr, and_iff_left hr]
    · simp [hr]

/-- **An answer of a checked format** is the answer under every policy. -/
theorem apply_of_checked (overflow : Overflow)
    (h : (f.withOverflow .checked).arithmetic.apply op left right = .ok r) :
    (f.withOverflow overflow).arithmetic.apply op left right = .ok r := by
  obtain ⟨h0, hr⟩ := (apply_checked_eq_ok_iff rfl).mp h
  rw [apply_eq_narrow, if_neg h0]
  -- the rounded result does not depend on the policy
  change narrow _ _ ((f.withOverflow .checked).exact op left right) = _
  rw [← hr, narrow_of_inRange _ _ r.inRange_val, Scaled.wrap_val]

/-- **The refusals of a format**: a division by zero unless it clamps, and a result out of
range if it is checked. -/
theorem cause_of_refusal {e : Error} (h : f.arithmetic.apply op left right = .error e) :
    e = .divisionByZero ∧ f.overflow ≠ .saturating ∨
      e = .overflow op.name ∧ f.overflow = .checked := by
  rw [apply_eq_narrow] at h
  cases hf : f.overflow with
  | wrapping =>
    simp only [divideByZero, narrow, hf] at h
    split at h
    · exact .inl ⟨(Except.error.inj h).symm, by decide⟩
    · cases h
  | saturating =>
    simp only [divideByZero, narrow, hf] at h
    split at h
    · cases h
    · cases h
  | checked =>
    simp only [divideByZero, narrow_checked hf, hf] at h
    split at h
    · exact .inl ⟨(Except.error.inj h).symm, by decide⟩
    · split at h
      · cases h
      · exact .inr ⟨(Except.error.inj h).symm, rfl⟩

end Format

/-! ### Whole runs -/

/-- **A result of a checked run** is a result under every policy. -/
theorem Plan.eval_of_checked {σ α : Type} {f : Format} {p : Plan σ α} {a : α}
    (h : p.eval (f.withOverflow .checked).arithmetic = .ok a) (overflow : Overflow) :
    p.eval (f.withOverflow overflow).arithmetic = .ok a := by
  rw [eval_eq_ok_iff] at h ⊢
  exact h.mono fun _ _ _ _ hanswer => Format.apply_of_checked overflow hanswer

/-- **A checked run has a result** exactly when the wrapping run has it and every call of
that run has a rounded result in range. -/
theorem Plan.eval_checked_iff_wrapping {σ α : Type} {f : Format} {p : Plan σ α} {a : α} :
    p.eval (f.withOverflow .checked).arithmetic = .ok a ↔
      p.eval (f.withOverflow .wrapping).arithmetic = .ok a ∧
        ∀ call ∈ (p.trace (f.withOverflow .wrapping).arithmetic).calls,
          Scaled.InRange (f.exact call.op call.left call.right) := by
  rw [eval_eq_ok_iff, ← outcome_run (f.withOverflow .wrapping).arithmetic 0, Plan.trace,
    run_eq_ok_iff 0]
  exact ⟨fun h => h.mono fun _ _ _ _ hanswer => Format.apply_checked_iff_wrapping.mp hanswer,
    fun h => h.mono fun _ _ _ _ hanswer => Format.apply_checked_iff_wrapping.mpr hanswer⟩

/-- **A checked run that divides by zero** does so under the wrapping policy too: up to that
call the two runs are the same. -/
theorem Plan.eval_divisionByZero {σ α : Type} {f : Format} {p : Plan σ α} {held : σ}
    (h : p.eval (f.withOverflow .checked).arithmetic = .error ⟨.divisionByZero, held⟩) :
    p.eval (f.withOverflow .wrapping).arithmetic = .error ⟨.divisionByZero, held⟩ := by
  refine eval_error_mono (fun _ _ _ _ => Format.apply_of_checked .wrapping) ?_ h
  intro op left right hrefused
  by_cases h0 : op = .divide ∧ right.val = 0
  · rw [Format.apply_eq_narrow, if_pos h0]
    rfl
  · -- out of range is another cause
    rw [Format.apply_eq_narrow, if_neg h0, Format.narrow_checked rfl] at hrefused
    split at hrefused
    · cases hrefused
    · cases hrefused

/-! ### Whole solves -/

namespace Config

/-- The configuration with another overflow policy. -/
def withOverflow (c : Config) (overflow : Overflow) : Config :=
  { c with format := c.format.withOverflow overflow }

/-- What a solve returns under an overflow policy. -/
def outcomeUnder (c : Config) (overflow : Overflow) (matrix rhs : Array Scaled) :
    Except Error Report :=
  ((c.withOverflow overflow).solve matrix rhs).outcome

variable {c : Config} {matrix rhs : Array Scaled}

/-- **A checked solve that returns** returns the same report under every policy. -/
theorem outcomeUnder_of_checked {report : Report}
    (h : c.outcomeUnder .checked matrix rhs = .ok report) (overflow : Overflow) :
    c.outcomeUnder overflow matrix rhs = .ok report := by
  obtain ⟨a, ha, r, hrun, hreport⟩ := outcome_solve_eq_ok_iff.mp h
  exact outcome_solve_eq_ok_iff.mpr ⟨a, ha, r, eval_of_checked hrun overflow, hreport⟩

/-- **A checked solve returns** exactly when the wrapping one does and none of its calls is
out of range. -/
theorem exists_outcomeUnder_checked_iff :
    (∃ report, c.outcomeUnder .checked matrix rhs = .ok report) ↔
      (∃ report, c.outcomeUnder .wrapping matrix rhs = .ok report) ∧
        ∀ call ∈ (c.withOverflow .wrapping).calls matrix rhs,
          Scaled.InRange (c.format.exact call.op call.left call.right) := by
  have hcalls : ∀ a, c.assemble matrix rhs = .ok a → (c.withOverflow .wrapping).calls matrix rhs =
      ((c.plan a).trace (c.format.withOverflow .wrapping).arithmetic).calls := by
    intro a ha
    have ha' : (c.withOverflow .wrapping).assemble matrix rhs = .ok a := ha
    rw [calls, ha']
    rfl
  constructor
  · rintro ⟨report, h⟩
    obtain ⟨a, ha, r, hrun, hreport⟩ := outcome_solve_eq_ok_iff.mp h
    refine ⟨⟨report, outcomeUnder_of_checked h .wrapping⟩, ?_⟩
    rw [hcalls a ha]
    exact (eval_checked_iff_wrapping.mp hrun).2
  · rintro ⟨⟨report, h⟩, hrange⟩
    obtain ⟨a, ha, r, hrun, hreport⟩ := outcome_solve_eq_ok_iff.mp h
    rw [hcalls a ha] at hrange
    exact ⟨report, outcome_solve_eq_ok_iff.mpr
      ⟨a, ha, r, eval_checked_iff_wrapping.mpr ⟨hrun, hrange⟩, hreport⟩⟩

/-- **A checked solve that divides by zero** does so under the wrapping policy too. -/
theorem outcomeUnder_divisionByZero
    (h : c.outcomeUnder .checked matrix rhs = .error .divisionByZero) :
    c.outcomeUnder .wrapping matrix rhs = .error .divisionByZero := by
  refine outcome_solve_eq_error_iff.mpr ?_
  rcases outcome_solve_eq_error_iff.mp h with ha | ⟨a, ha, ⟨stopped, hrun, hcause⟩ | ⟨r, hrun, hr⟩⟩
  · exact .inl ha
  · obtain ⟨cause, held⟩ := stopped
    obtain rfl : cause = .divisionByZero := hcause
    exact .inr ⟨a, ha, .inl ⟨_, eval_divisionByZero hrun, rfl⟩⟩
  · exact .inr ⟨a, ha, .inr ⟨r, eval_of_checked hrun .wrapping, hr⟩⟩

/-- **The overflow policies over whole solves.** A report of the checked policy is the report
of all three; the checked solve returns exactly when the wrapping one does with every rounded
result in range; and a division by zero under the checked policy is one under the wrapping
policy. If the data describes a system, then the wrapping solve can only divide by zero, the
saturating one always returns, and the checked one can only divide by zero or overflow in one
of the four operations. -/
theorem overflow_policies (c : Config) (matrix rhs : Array Scaled) :
    (∀ report, c.outcomeUnder .checked matrix rhs = .ok report →
      c.outcomeUnder .wrapping matrix rhs = .ok report ∧
        c.outcomeUnder .saturating matrix rhs = .ok report) ∧
    ((∃ report, c.outcomeUnder .checked matrix rhs = .ok report) ↔
      (∃ report, c.outcomeUnder .wrapping matrix rhs = .ok report) ∧
        ∀ call ∈ (c.withOverflow .wrapping).calls matrix rhs,
          Scaled.InRange (c.format.exact call.op call.left call.right)) ∧
    (c.outcomeUnder .checked matrix rhs = .error .divisionByZero →
      c.outcomeUnder .wrapping matrix rhs = .error .divisionByZero) ∧
    (c.Describes matrix rhs →
      (∀ e, c.outcomeUnder .wrapping matrix rhs = .error e → e = .divisionByZero) ∧
        (∃ report, c.outcomeUnder .saturating matrix rhs = .ok report) ∧
        ∀ e, c.outcomeUnder .checked matrix rhs = .error e →
          e = .divisionByZero ∨ ∃ op : Op, e = .overflow op.name) := by
  refine ⟨fun report h => ⟨outcomeUnder_of_checked h _, outcomeUnder_of_checked h _⟩,
    exists_outcomeUnder_checked_iff, outcomeUnder_divisionByZero, fun hdata => ?_⟩
  -- the shape of the data does not depend on the policy
  have hshape : ∀ overflow, (c.withOverflow overflow).Describes matrix rhs := fun _ =>
    ⟨hdata.pos, hdata.matrix_size, hdata.matrix_size_lt, hdata.rhs_size⟩
  have hrefusal : ∀ overflow e, c.outcomeUnder overflow matrix rhs = .error e →
      e = .divisionByZero ∧ overflow ≠ .saturating ∨
        (∃ op : Op, e = .overflow op.name) ∧ overflow = .checked := by
    intro overflow e h
    obtain ⟨op, left, right, hrefused⟩ := (hshape overflow).refusal_of_error h
    rcases Format.cause_of_refusal hrefused with h' | ⟨he, hchecked⟩
    · exact .inl h'
    · exact .inr ⟨⟨op, he⟩, hchecked⟩
  refine ⟨fun e h => ?_, ?_, fun e h => ?_⟩
  · rcases hrefusal _ e h with ⟨he, -⟩ | ⟨-, hpolicy⟩
    · exact he
    · cases hpolicy
  · cases h : c.outcomeUnder .saturating matrix rhs with
    | ok report => exact ⟨report, rfl⟩
    | error e =>
      rcases hrefusal _ e h with ⟨-, hpolicy⟩ | ⟨-, hpolicy⟩
      · exact absurd rfl hpolicy
      · cases hpolicy
  · rcases hrefusal _ e h with ⟨he, -⟩ | ⟨hop, -⟩
    · exact .inl he
    · exact .inr hop

/-- A system whose first product is out of range. -/
def steepMatrix : Array Scaled := #[⟨1⟩, ⟨2000000000⟩, ⟨-5⟩, ⟨3⟩]

/-- A right-hand side to go with it. -/
def steepRhs : Array Scaled := #[⟨16⟩, ⟨32⟩]

/-- The configuration in which it is solved: four fractional bits, to nearest. -/
def steepConfig : Config where
  dimension := 2
  format := {
    fracBits := 4
    rounding := .nearest
    overflow := .wrapping
    fracBits_le := four_le_maxFracBits }
  verbosity := 0

theorem overflow_policies_steep :
    steepConfig.Describes steepMatrix steepRhs ∧
    (∃ report, steepConfig.outcomeUnder .saturating steepMatrix steepRhs = .ok report) ∧
    (∃ report, steepConfig.outcomeUnder .wrapping steepMatrix steepRhs = .ok report) ∧
    (∃ call ∈ (steepConfig.withOverflow .wrapping).calls steepMatrix steepRhs,
      ¬Scaled.InRange (steepConfig.format.exact call.op call.left call.right)) ∧
    ∃ e, steepConfig.outcomeUnder .checked steepMatrix steepRhs = .error e ∧
      (e = .divisionByZero ∨ ∃ op : Op, e = .overflow op.name) := by
  have hdata : steepConfig.Describes steepMatrix steepRhs :=
    ⟨by decide, by decide, by decide, by decide⟩
  have hwrapping : (steepConfig.outcomeUnder .wrapping steepMatrix steepRhs).toOption.map
      Report.swaps = some [] := by
    decide +kernel
  have hchecked : (steepConfig.outcomeUnder .checked steepMatrix steepRhs).toOption.map
      Report.swaps = none := by
    decide +kernel
  obtain ⟨-, hiff, -, hfail⟩ := overflow_policies steepConfig steepMatrix steepRhs
  obtain ⟨-, hsaturating, herror⟩ := hfail hdata
  obtain ⟨report, hreport, -⟩ := exists_ok_of_view hwrapping
  cases h : steepConfig.outcomeUnder .checked steepMatrix steepRhs with
  | ok report' =>
    rw [h] at hchecked
    cases hchecked
  | error e =>
    refine ⟨hdata, hsaturating, ⟨report, hreport⟩, ?_, e, rfl, herror e h⟩
    by_contra hnone
    obtain ⟨report', hok⟩ := hiff.mpr ⟨⟨report, hreport⟩, fun call hcall =>
      by_contra fun hout => hnone ⟨call, hcall, hout⟩⟩
    rw [h] at hok
    cases hok

end Config

end ScaledGauss

import ScaledGauss.Proofs.EntryPoints
import ScaledGauss.Proofs.PivotScan
import ScaledGauss.Proofs.Substitution

/-!
# Zero pivots

Nothing in a solve looks for a zero pivot: it is handed to the arithmetic as a divisor. So what
becomes of it is a question about runs, and for an arithmetic that refuses to divide by zero and
refuses nothing else – a format that wraps around – the answer is exact.

* **An elimination fails** exactly when at some step with rows below, the largest entry of the
  column is zero, as a signed value. It fails at once: the first call of the reduction is the
  division, and what is left behind is what the scan of that step has made.
* **An elimination that ends** has met no zero pivot, and a pivot is final once its row has been
  scanned. So the diagonal has no zero but perhaps the last entry, which no step divides by.
* **Back substitution** divides by every diagonal entry, hence it decides about the last one.

For the second point and one half of the third it is enough that division by zero is refused, so
they hold of a checked format too.

## Main definitions

– `ScaledGauss.Arithmetic.RefusesZero`, `ScaledGauss.Arithmetic.RefusesOnlyZero`.

## Main results

– `ScaledGauss.Stage.eval_step_eq_error_iff`: when a step fails;
– `ScaledGauss.Augmented.eval_eliminate_eq_error_iff`: an elimination fails at a step;
– `ScaledGauss.Stage.diagonal_ne_zero_of_yields`: the diagonal after an elimination;
– `ScaledGauss.LinearSystem.exists_unknowns_iff`: when an eliminated system is solved;
– `ScaledGauss.Format.zero_pivot`: all of it, for formats.
-/

namespace ScaledGauss

open Plan

variable {n : Nat} {A : Arithmetic}

/-! ### Division by zero -/

/-- An arithmetic that refuses to divide by zero. -/
def Arithmetic.RefusesZero (A : Arithmetic) : Prop :=
  ∀ left right, right.val = 0 → A.apply .divide left right = .error .divisionByZero

/-- An arithmetic that refuses nothing else. -/
def Arithmetic.RefusesOnlyZero (A : Arithmetic) : Prop :=
  ∀ op left right, ¬(op = .divide ∧ right.val = 0) → ∃ r, A.Answers op left right r

/-- A quotient was not by zero. -/
theorem Arithmetic.RefusesZero.ne_zero (hA : A.RefusesZero) {left right r : Scaled}
    (h : A.Answers .divide left right r) : right.val ≠ 0 := by
  intro hzero
  cases h.symm.trans (hA left right hzero)

/-- What such an arithmetic refuses, it refuses as a division by zero. -/
theorem Arithmetic.RefusesOnlyZero.cause (honly : A.RefusesOnlyZero) (hzero : A.RefusesZero)
    {op : Op} {left right : Scaled} {e : Error} (h : A.apply op left right = .error e) :
    e = .divisionByZero := by
  by_cases hdiv : op = .divide ∧ right.val = 0
  · obtain ⟨rfl, hright⟩ := hdiv
    exact Except.error.inj (h.symm.trans (hzero left right hright))
  · obtain ⟨r, hr⟩ := honly op left right hdiv
    cases h.symm.trans hr

namespace Format

variable {f : Format}

theorem refusesZero (hf : f.overflow ≠ .saturating) : f.arithmetic.RefusesZero := by
  intro left right hright
  rw [apply_eq_narrow, if_pos ⟨rfl, hright⟩, divideByZero]
  cases ho : f.overflow with
  | wrapping => rfl
  | saturating => exact absurd ho hf
  | checked => rfl

theorem refusesOnlyZero (hf : f.overflow = .wrapping) : f.arithmetic.RefusesOnlyZero := by
  intro op left right h
  have happly := f.apply_eq_narrow op left right
  rw [if_neg h, narrow, hf] at happly
  exact ⟨_, happly⟩

end Format

/-! ### Where an elimination fails -/

/-- Another view of the states changes what a failed run leaves behind, and nothing else. -/
theorem Plan.eval_mapHeld {σ τ α : Type} (view : σ → τ) (p : Plan σ α) :
    (p.mapHeld view).eval A =
      (p.eval A).mapError fun stopped => ⟨stopped.cause, view stopped.held⟩ := by
  rw [← outcome_run A 0, run_mapHeld, outcome_run]

namespace Augmented

variable {one zero : Scaled} {a : Augmented n}

theorem eval_eliminateFirst_succ (i : Fin n) :
    (a.eliminateFirst one zero (i.val + 1)).eval A =
      (a.eliminateFirst one zero i).eval A >>= fun S => (S.step i).eval A := by
  rw [eliminateFirst, take_finRange_succ, List.foldlM_append, eval_bind]
  simp [eliminateFirst]

/-- **An elimination fails at a step**: it reaches the step, and the step fails. -/
theorem eval_eliminate_eq_error_iff {stopped : Stopped (Stage n)} :
    (a.eliminate one zero).eval A = .error stopped ↔
      ∃ (i : Fin n) (S : Stage n), (a.eliminateFirst one zero i).eval A = .ok S ∧
        (S.step i).eval A = .error stopped := by
  constructor
  · intro h
    have key : ∀ t, t ≤ n → (a.eliminateFirst one zero t).eval A = .error stopped →
        ∃ (i : Fin n) (S : Stage n), (a.eliminateFirst one zero i).eval A = .ok S ∧
          (S.step i).eval A = .error stopped := by
      intro t
      induction t with
      | zero =>
        intro _ h
        cases h
      | succ t ih =>
        intro ht h
        rw [eval_eliminateFirst_succ ⟨t, ht⟩] at h
        rcases bind_eq_error_iff.mp h with h | ⟨S, hS, hstep⟩
        · exact ih (Nat.le_of_succ_le ht) h
        · exact ⟨⟨t, ht⟩, S, hS, hstep⟩
    rw [← eliminateFirst_all] at h
    exact key n le_rfl h
  · rintro ⟨i, S, hS, hstep⟩
    rw [a.eliminate_eq_bind one zero i, eval_bind, hS, ok_bind, eval_bind, hstep]
    rfl

end Augmented

/-- **A failed elimination** of a system with equations: the check of the shape has no part in
it. -/
theorem Arithmetic.eliminate_eq_error_iff {a : Augmented n} (hn : 0 < n)
    {stopped : Stopped Remains} :
    A.eliminate a = .error stopped ↔ ∃ s, (a.eliminate A.one A.zero).eval A = .error s ∧
      stopped = ⟨s.cause, LinearSystem.remains s.held⟩ := by
  have hcheck := LinearSystem.afterCheck_of_augmented (LinearSystem.augmented_ofAugmented hn a)
    (·.eliminate A.one A.zero)
  have heval : A.eliminate a = ((a.eliminate A.one A.zero).eval A).mapError fun s =>
      ⟨s.cause, LinearSystem.remains s.held⟩ :=
    (congrArg (eval A) hcheck).trans (eval_mapHeld _ _)
  rw [heval, mapError_eq_error_iff]
  exact exists_congr fun s => and_congr_right' eq_comm

namespace Stage

variable {i : Fin n} {S S' : Stage n}

/-- The pivot is zero exactly when zero is the greatest value of its column. -/
theorem val_pivot_eq_zero_iff :
    ((S.scan i).coefficient i i).val = 0 ↔ IsGreatest (S.columnFrom i) 0 := by
  have hgreatest := (S.scanned_scan i).greatest
  constructor
  · intro h
    rwa [h] at hgreatest
  · intro h
    exact hgreatest.unique h

/-- **A step with a zero pivot fails at once**, with what its scan has made. -/
theorem eval_step_of_zero (hA : A.RefusesZero) (hi : i.val + 1 < n)
    (h : ((S.scan i).coefficient i i).val = 0) :
    (S.step i).eval A = .error ⟨.divisionByZero, S.scan i⟩ := by
  obtain ⟨left, next, hcall⟩ := (S.scan i).reduce_eq_call hi
  rw [step, hcall, eval, hA left _ h]

/-- **A step without a zero pivot** is done, if nothing else is refused. -/
theorem exists_yields_step (hA : A.RefusesOnlyZero)
    (h : i.val + 1 < n → ((S.scan i).coefficient i i).val ≠ 0) :
    ∃ S', Yields A.Answers (S.step i) S' := by
  refine exists_yields_reduce_iff.mpr fun k hk => ?_
  have hik : i.val < k.val := hk
  have hpivot := h (by have := k.isLt; omega)
  obtain ⟨factor, hfactor⟩ := hA .divide ((S.scan i).coefficient k i) _ fun hc => hpivot hc.2
  refine ⟨factor, hfactor, fun j _ => ?_⟩
  obtain ⟨product, hproduct⟩ := hA .multiply factor ((S.scan i).system.entry i j) (by simp)
  obtain ⟨difference, hdifference⟩ := hA .subtract ((S.scan i).system.entry k j) product (by simp)
  exact ⟨product, hproduct, difference, hdifference⟩

/-- **When a step fails.** -/
theorem eval_step_eq_error_iff (hzero : A.RefusesZero) (honly : A.RefusesOnlyZero)
    {stopped : Stopped (Stage n)} :
    (S.step i).eval A = .error stopped ↔ i.val + 1 < n ∧
      IsGreatest (S.columnFrom i) 0 ∧ stopped = ⟨.divisionByZero, S.scan i⟩ := by
  rw [← val_pivot_eq_zero_iff]
  by_cases h : i.val + 1 < n ∧ ((S.scan i).coefficient i i).val = 0
  · rw [eval_step_of_zero hzero h.1 h.2, Except.error.injEq, eq_comm]
    exact ⟨fun heq => ⟨h.1, h.2, heq⟩, fun heq => heq.2.2⟩
  · obtain ⟨S', hS'⟩ := exists_yields_step honly fun hi hpivot => h ⟨hi, hpivot⟩
    rw [eval_eq_ok_iff.mpr hS']
    exact ⟨nofun, fun hc => absurd ⟨hc.1, hc.2.1⟩ h⟩

/-- **The diagonal after an elimination** has no zero, the last entry apart: a pivot was divided
by, and no later step changes its row. -/
theorem diagonal_ne_zero_of_yields (hA : A.RefusesZero) {one zero : Scaled} {a : Augmented n}
    (h : Yields A.Answers (a.eliminate one zero) S) {k : Fin n} (hk : k.val + 1 < n) :
    (S.coefficient k k).val ≠ 0 := by
  have key : ∀ l : Fin n, l.val < n → l.val + 1 < n → (S.coefficient l l).val ≠ 0 := by
    refine h.step_induction (I := fun t S =>
      ∀ l : Fin n, l.val < t → l.val + 1 < n → (S.coefficient l l).val ≠ 0) nofun ?_
    intro i S S' _ hS hstep l hl hln
    have hfinal : S'.coefficient l l = (S.scan i).coefficient l l :=
      (reduced_of_yields hstep).entry_of_le (Fin.le_def.mpr (Nat.le_of_lt_succ hl)) _
    rw [hfinal]
    rcases (Nat.le_of_lt_succ hl).eq_or_lt with heq | hlt
    · obtain rfl : l = i := Fin.ext heq
      intro hzero
      have hfails := eval_step_of_zero hA hln hzero
      cases hfails.symm.trans (eval_eq_ok_iff.mpr hstep)
    · have habove : (S.scan i).coefficient l l = S.coefficient l l :=
        (S.scanned_scan i).row_above l hlt _
      rw [habove]
      exact hS l hlt hln
  exact key k k.isLt hk

end Stage

/-! ### Back substitution -/

/-- A sweep goes through if each of its steps does. -/
theorem Plan.exists_yields_foldlM {σ β ι : Type} {R : Law} {f : β → ι → Plan σ β} {l : List ι}
    (h : ∀ b, ∀ x ∈ l, ∃ c, Yields R (f b x) c) (b : β) : ∃ c, Yields R (l.foldlM f b) c := by
  induction l generalizing b with
  | nil => exact ⟨b, yields_pure_iff.mpr rfl⟩
  | cons x l ih =>
    obtain ⟨c, hc⟩ := h b x List.mem_cons_self
    obtain ⟨d, hd⟩ := ih (fun b' x' hx' => h b' x' (List.mem_cons_of_mem x hx')) c
    rw [List.foldlM_cons]
    exact ⟨d, yields_bind_iff.mpr ⟨c, hc, hd⟩⟩

namespace Augmented

variable {σ : Type} {held : σ} {zero : Scaled} {a : Augmented n}

/-- **Back substitution finds a solution** if no diagonal entry is zero. -/
theorem exists_yields_backSubstitute (hA : A.RefusesOnlyZero)
    (h : ∀ i : Fin n, (a.entry i i.castSucc).val ≠ 0) :
    ∃ x, Yields A.Answers (a.backSubstitute held zero) x := by
  refine exists_yields_foldlM (fun x i _ => ?_) _
  obtain ⟨sum, hsum⟩ : ∃ sum, Yields A.Answers (a.weightedSum held zero x i) sum := by
    refine exists_yields_foldlM (fun sum j _ => ?_) _
    obtain ⟨product, hproduct⟩ := hA .multiply (x.get j) (a.entry i j.castSucc) (by simp)
    obtain ⟨sum', hsum'⟩ := hA .add sum product (by simp)
    simp only [yields_bind_iff, yields_consult_iff]
    exact ⟨sum', product, hproduct, hsum'⟩
  obtain ⟨d, hd⟩ : ∃ d, Yields A.Answers (a.dividend held zero x i) d := by
    rw [dividend]
    split
    · exact ⟨_, yields_pure_iff.mpr rfl⟩
    · obtain ⟨d, hd⟩ := hA .subtract (a.rhs.get i) sum (by simp)
      simp only [yields_bind_iff, yields_consult_iff]
      exact ⟨d, sum, hsum, hd⟩
  obtain ⟨unknown, hunknown⟩ := hA .divide d _ fun hc => h i hc.2
  simp only [substitute, yields_bind_iff, yields_consult_iff, yields_pure_iff]
  exact ⟨_, d, hd, unknown, hunknown, rfl⟩

/-- **It divides by every diagonal entry.** -/
theorem diagonal_ne_zero_of_backSubstitute (hA : A.RefusesZero) {x : Column n}
    (h : Yields A.Answers (a.backSubstitute held zero) x) (i : Fin n) :
    (a.entry i i.castSucc).val ≠ 0 := by
  obtain ⟨d, -, hquotient⟩ := found_of_yields h i
  exact hA.ne_zero hquotient

end Augmented

namespace LinearSystem

variable {a : Augmented n} {S : Stage n}

/-- **The unknowns of an eliminated system** are what back substitution finds in it. -/
theorem unknowns_eq_ok_iff_of_eliminate (hS : A.eliminate a = .ok S) {x : Column n} :
    (ofAugmented a).unknowns A = .ok x ↔
      Yields A.Answers (S.system.backSubstitute S A.zero) x := by
  obtain ⟨hn, hS⟩ := Arithmetic.eliminate_eq_ok_iff.mp hS
  have hsolve : ∀ T, ((ofAugmented a).solve A.one A.zero).result A = .ok (T, x) ↔
      Yields A.Answers (a.solve A.one A.zero) (T, x) := by
    intro T
    rw [result, mapError_eq_ok_iff, eval_eq_ok_iff]
    exact yields_solve_iff.trans (and_iff_right hn)
  refine unknowns_eq_ok_iff.trans ⟨?_, ?_⟩
  · rintro ⟨T, hT⟩
    have hyields := (hsolve T).mp hT
    simp only [Augmented.solve, yields_bind_iff, yields_pure_iff] at hyields
    obtain ⟨T', hT', y, hy, heq⟩ := hyields
    obtain ⟨rfl, rfl⟩ := Prod.mk.inj heq
    obtain rfl : T = S := hT'.unique hS
    exact hy
  · intro hx
    refine ⟨S, (hsolve S).mpr ?_⟩
    simp only [Augmented.solve, yields_bind_iff, yields_pure_iff]
    exact ⟨S, hS, x, hx, rfl⟩

/-- Where nothing but a division by zero is refused, the unknowns fail with that. -/
theorem unknowns_eq_divisionByZero (hzero : A.RefusesZero) (honly : A.RefusesOnlyZero) (hn : 0 < n)
    (h : ¬∃ x, (ofAugmented a).unknowns A = .ok x) :
    (ofAugmented a).unknowns A = .error .divisionByZero := by
  cases hu : (ofAugmented a).unknowns A with
  | ok x => exact absurd ⟨x, hu⟩ h
  | error e =>
    have hresult := unknowns_eq_error_iff.mp hu
    rw [result_solve (augmented_ofAugmented hn a), result] at hresult
    obtain ⟨stopped, hstopped, rfl⟩ := mapError_eq_error_iff.mp hresult
    obtain ⟨op, left, right, hrefused⟩ :=
      (Augmented.consulting_solve _ _ a).refusal_of_eval_error hstopped
    rw [honly.cause hzero hrefused]

end LinearSystem

/-! ### Systems with equations -/

/-- The diagonal entries of the triangle are those of the system. -/
theorem Stage.upper_ne_zero_iff {S : Stage n} {i : Fin n} :
    S.upper.entry i i ≠ .zero ↔ (S.coefficient i i).val ≠ 0 := by
  rw [entry_upper, ne_eq, Scaled.ext_val_iff, Scaled.val_zero]

section Solved

variable {a : Augmented (n + 1)} {S : Stage (n + 1)}

/-- **An elimination fails on a zero pivot**, and on nothing else. -/
theorem Arithmetic.eliminate_eq_error_iff_greatest (hzero : A.RefusesZero)
    (honly : A.RefusesOnlyZero) {stopped : Stopped Remains} :
    A.eliminate a = .error stopped ↔
      ∃ (i : Fin (n + 1)) (S : Stage (n + 1)), i < Fin.last n ∧
        (a.eliminateFirst A.one A.zero i).eval A = .ok S ∧ IsGreatest (S.columnFrom i) 0 ∧
        stopped = ⟨.divisionByZero, LinearSystem.remains (S.scan i)⟩ := by
  rw [Arithmetic.eliminate_eq_error_iff n.succ_pos]
  simp only [Augmented.eval_eliminate_eq_error_iff, Stage.eval_step_eq_error_iff hzero honly]
  constructor
  · rintro ⟨_, ⟨i, S, hS, hi, hgreatest, rfl⟩, rfl⟩
    exact ⟨i, S, Nat.lt_of_succ_lt_succ hi, hS, hgreatest, rfl⟩
  · rintro ⟨i, S, hi, hS, hgreatest, rfl⟩
    exact ⟨_, ⟨i, S, hS, Nat.succ_lt_succ hi, hgreatest, rfl⟩, rfl⟩

/-- **An elimination that ends** leaves no zero on the diagonal but perhaps the last entry. -/
theorem Stage.upper_ne_zero_of_eliminate (hA : A.RefusesZero) (hS : A.eliminate a = .ok S)
    {i : Fin (n + 1)} (hi : i < Fin.last n) : S.upper.entry i i ≠ .zero := by
  rw [upper_ne_zero_iff]
  exact diagonal_ne_zero_of_yields hA (Arithmetic.eliminate_eq_ok_iff.mp hS).2
    (Nat.succ_lt_succ hi)

/-- **A solve that ends** leaves none at all. -/
theorem Stage.upper_ne_zero_of_unknowns (hA : A.RefusesZero) (hS : A.eliminate a = .ok S)
    {x : Column (n + 1)} (hx : (LinearSystem.ofAugmented a).unknowns A = .ok x)
    (i : Fin (n + 1)) : S.upper.entry i i ≠ .zero := by
  rw [upper_ne_zero_iff]
  exact Augmented.diagonal_ne_zero_of_backSubstitute hA
    ((LinearSystem.unknowns_eq_ok_iff_of_eliminate hS).mp hx) i

/-- **After an elimination the last diagonal entry decides** whether the unknowns are there. -/
theorem LinearSystem.exists_unknowns_iff (hzero : A.RefusesZero) (honly : A.RefusesOnlyZero)
    (hS : A.eliminate a = .ok S) :
    (∃ x, (ofAugmented a).unknowns A = .ok x) ↔
      S.upper.entry (Fin.last n) (Fin.last n) ≠ .zero := by
  constructor
  · rintro ⟨x, hx⟩
    exact Stage.upper_ne_zero_of_unknowns hzero hS hx (Fin.last n)
  · intro hlast
    have hall : ∀ i, (S.coefficient i i).val ≠ 0 := by
      intro i
      rw [← Stage.upper_ne_zero_iff]
      rcases (Fin.le_last i).eq_or_lt with rfl | hi
      · exact hlast
      · exact Stage.upper_ne_zero_of_eliminate hzero hS hi
    obtain ⟨x, hx⟩ : ∃ x, Yields A.Answers (S.system.backSubstitute S A.zero) x :=
      Augmented.exists_yields_backSubstitute honly hall
    exact ⟨x, (unknowns_eq_ok_iff_of_eliminate hS).mpr hx⟩

end Solved

/-! ### Formats -/

/-- **Exactly when a solve dies on a zero pivot.** Under a format that wraps around, the
elimination of a system fails if and only if at some step that it reaches, the last apart, the
greatest value of the column from the diagonal down is zero; the error is a division by zero,
and what is left behind is the system right after the scan of that step. If it ends, no diagonal
entry but the last can be zero, and the unknowns are there if and only if the last is not zero
either; otherwise they fail with a division by zero. Under a checked format, too, an elimination
that ends leaves no zero on the diagonal but perhaps the last entry, and a solve that ends none
at all. -/
theorem Format.zero_pivot (f : Format) (a : Augmented (n + 1)) :
    (f.overflow = .wrapping →
      (∀ stopped, f.arithmetic.eliminate a = .error stopped ↔
        ∃ (i : Fin (n + 1)) (S : Stage (n + 1)), i < Fin.last n ∧
          (a.eliminateFirst f.arithmetic.one f.arithmetic.zero i).eval f.arithmetic = .ok S ∧
          IsGreatest (S.columnFrom i) 0 ∧
          stopped = ⟨.divisionByZero, LinearSystem.remains (S.scan i)⟩) ∧
      ∀ S, f.arithmetic.eliminate a = .ok S →
        (∀ i, i < Fin.last n → S.upper.entry i i ≠ .zero) ∧
        ((∃ x, (LinearSystem.ofAugmented a).unknowns f.arithmetic = .ok x) ↔
          S.upper.entry (Fin.last n) (Fin.last n) ≠ .zero) ∧
        (S.upper.entry (Fin.last n) (Fin.last n) = .zero →
          (LinearSystem.ofAugmented a).unknowns f.arithmetic = .error .divisionByZero)) ∧
    (f.overflow = .checked → ∀ S, f.arithmetic.eliminate a = .ok S →
      (∀ i, i < Fin.last n → S.upper.entry i i ≠ .zero) ∧
      ∀ x, (LinearSystem.ofAugmented a).unknowns f.arithmetic = .ok x →
        ∀ i, S.upper.entry i i ≠ .zero) := by
  constructor
  · intro hf
    have hzero := refusesZero (f := f) (by rw [hf]; decide)
    have honly := refusesOnlyZero hf
    refine ⟨fun stopped => Arithmetic.eliminate_eq_error_iff_greatest hzero honly, fun S hS => ?_⟩
    have hiff := LinearSystem.exists_unknowns_iff hzero honly hS
    refine ⟨fun i hi => Stage.upper_ne_zero_of_eliminate hzero hS hi, hiff, fun hlast => ?_⟩
    exact LinearSystem.unknowns_eq_divisionByZero hzero honly n.succ_pos fun hx =>
      hiff.mp hx hlast
  · intro hf S hS
    have hzero := refusesZero (f := f) (by rw [hf]; decide)
    exact ⟨fun i hi => Stage.upper_ne_zero_of_eliminate hzero hS hi,
      fun x hx i => Stage.upper_ne_zero_of_unknowns hzero hS hx i⟩

/-- A system with one solution. Its second pivot is zero, because the other entry of the column
is then negative. -/
def negativeSystem : Augmented 3 := .join
  #v[#v[⟨2⟩, ⟨1⟩, ⟨0⟩], #v[⟨2⟩, ⟨1⟩, ⟨-1⟩], #v[⟨2⟩, ⟨0⟩, ⟨1⟩]] #v[⟨3⟩, ⟨2⟩, ⟨3⟩]

/-- A system with the same equation twice. -/
def repeatedSystem : Augmented 2 := .join #v[#v[⟨1⟩, ⟨1⟩], #v[⟨1⟩, ⟨1⟩]] #v[⟨2⟩, ⟨2⟩]

/-- Checked integers. -/
def checkedIntegers : Format := Format.integer.withOverflow .checked

/-- A system that they solve. -/
def solvedSystem : Augmented 2 := .join #v[#v[⟨1⟩, ⟨1⟩], #v[⟨1⟩, ⟨2⟩]] #v[⟨2⟩, ⟨3⟩]

theorem Format.zero_pivot_negative :
    Format.integer.overflow = .wrapping ∧
    (∃ S, (negativeSystem.eliminateFirst Format.integer.arithmetic.one
        Format.integer.arithmetic.zero (1 : Fin 3)).eval Format.integer.arithmetic = .ok S ∧
      IsGreatest (S.columnFrom 1) 0 ∧ Format.integer.arithmetic.eliminate negativeSystem =
        .error ⟨.divisionByZero, LinearSystem.remains (S.scan 1)⟩) ∧
    (∃ S, Format.integer.arithmetic.eliminate repeatedSystem = .ok S ∧
      S.upper.entry 0 0 ≠ .zero ∧ S.upper.entry 1 1 = .zero ∧
      (LinearSystem.ofAugmented repeatedSystem).unknowns Format.integer.arithmetic =
        .error .divisionByZero) ∧
    checkedIntegers.overflow = .checked ∧
    ∃ S x, checkedIntegers.arithmetic.eliminate solvedSystem = .ok S ∧
      (LinearSystem.ofAugmented solvedSystem).unknowns checkedIntegers.arithmetic = .ok x ∧
      ∀ i, S.upper.entry i i ≠ .zero := by
  have hreached : ((negativeSystem.eliminateFirst Format.integer.arithmetic.one
      Format.integer.arithmetic.zero (1 : Fin 3)).eval Format.integer.arithmetic).toOption.map
        (fun S => ((S.scan 1).coefficient 1 1).val) = some 0 := by
    decide +kernel
  have hrepeated : (Format.integer.arithmetic.eliminate repeatedSystem).toOption.map
      (fun S => S.upper.entry 1 1) = some .zero := by
    decide +kernel
  have hsolved : (checkedIntegers.arithmetic.eliminate solvedSystem).toOption.map
      Stage.swaps = some [] := by
    decide +kernel
  have hunknowns : ((LinearSystem.ofAugmented solvedSystem).unknowns
      checkedIntegers.arithmetic).toOption.map Vector.toList = some [⟨1⟩, ⟨1⟩] := by
    decide +kernel
  refine ⟨rfl, ?_, ?_, rfl, ?_⟩
  · obtain ⟨S, hS, hpivot⟩ := exists_ok_of_view hreached
    have hgreatest := Stage.val_pivot_eq_zero_iff.mp hpivot
    obtain ⟨hfails, -⟩ := (zero_pivot Format.integer negativeSystem).1 rfl
    exact ⟨S, hS, hgreatest, (hfails _).mpr ⟨1, S, by decide, hS, hgreatest, rfl⟩⟩
  · obtain ⟨S, hS, hlast⟩ := exists_ok_of_view hrepeated
    obtain ⟨hdiagonal, -, hdies⟩ := ((zero_pivot Format.integer repeatedSystem).1 rfl).2 S hS
    exact ⟨S, hS, hdiagonal 0 (by decide), hlast, hdies hlast⟩
  · obtain ⟨S, hS, -⟩ := exists_ok_of_view hsolved
    obtain ⟨x, hx, -⟩ := exists_ok_of_view hunknowns
    exact ⟨S, x, hS, hx, ((zero_pivot checkedIntegers solvedSystem).2 rfl S hS).2 x hx⟩

end ScaledGauss

import ScaledGauss.Problem
import ScaledGauss.Proofs.Solve

/-!
# The first failure

Where several things are wrong at once, one of them is reported: the **first** in the order in
which they are looked at (`ScaledGauss.FirstFails`). The notion says nothing about how they are
looked at; that a computation in sequence does report the first failure is what has to be proved of
it, and one lemma does so for two parts of which the second is reached where the first one passes
(`ScaledGauss.bind_eq_error_iff_firstFails`).

Two sequences of the library are of this kind. The error of a conversion is the one of the first
real that has no raw value (`ScaledGauss.Values.scaled_eq_error_iff`), and the error of a run over
an arithmetic is the one of the first call that is refused
(`ScaledGauss.Plan.Consulting.result_eq_error_iff`).
-/

namespace ScaledGauss

open Plan

/-! ### The first failure of a list -/

section FirstFails

variable {κ ε α β : Type} {fails : κ → ε → Prop} {c : κ} {cs ds : List κ} {e : ε}

/-- **The first failure** of checks made in order: one of them fails with the error, and none
before it fails. -/
def FirstFails (fails : κ → ε → Prop) (checks : List κ) (e : ε) : Prop :=
  ∃ before check after, checks = before ++ check :: after ∧ fails check e ∧
    ∀ earlier ∈ before, ∀ e', ¬fails earlier e'

theorem not_firstFails_nil : ¬FirstFails fails [] e := by
  rintro ⟨before, c, after, h, -⟩
  simp at h

theorem firstFails_cons_iff :
    FirstFails fails (c :: cs) e ↔ fails c e ∨ (∀ e', ¬fails c e') ∧ FirstFails fails cs e := by
  constructor
  · rintro ⟨before, check, after, hsplit, hfails, hbefore⟩
    cases before with
    | nil =>
      obtain ⟨rfl, -⟩ := List.cons.inj hsplit
      exact .inl hfails
    | cons first before =>
      obtain ⟨rfl, hrest⟩ := List.cons.inj hsplit
      obtain ⟨hfirst, hbefore⟩ := List.forall_mem_cons.mp hbefore
      exact .inr ⟨hfirst, before, check, after, hrest, hfails, hbefore⟩
  · rintro (hfails | ⟨hfirst, before, check, after, rfl, hfails, hbefore⟩)
    · exact ⟨[], c, cs, rfl, hfails, by simp⟩
    · exact ⟨c :: before, check, after, rfl, hfails, List.forall_mem_cons.mpr ⟨hfirst, hbefore⟩⟩

theorem firstFails_append_iff :
    FirstFails fails (cs ++ ds) e ↔
      FirstFails fails cs e ∨ (∀ c ∈ cs, ∀ e', ¬fails c e') ∧ FirstFails fails ds e := by
  induction cs with
  | nil => simp [not_firstFails_nil]
  | cons c cs ih =>
    rw [List.cons_append, firstFails_cons_iff, firstFails_cons_iff, ih, List.forall_mem_cons]
    tauto

/-- **There is a first failure** exactly when there is a failure. -/
theorem exists_firstFails_iff : (∃ e, FirstFails fails cs e) ↔ ∃ c ∈ cs, ∃ e, fails c e := by
  induction cs with
  | nil => simp [not_firstFails_nil]
  | cons c cs ih =>
    simp only [firstFails_cons_iff, exists_or, exists_and_left, ih, List.exists_mem_cons_iff]
    by_cases hc : ∃ e, fails c e
    · simp only [hc, true_or]
    · simp only [hc, false_or, and_iff_right (not_exists.mp hc)]

/-- **Checks in sequence**: the second list is looked at where the first one passes. -/
theorem bind_eq_error_iff_firstFails {x : Except ε α} {f : α → Except ε β}
    (hx : ∀ e, x = .error e ↔ FirstFails fails cs e)
    (hf : ∀ a, x = .ok a → (f a = .error e ↔ FirstFails fails ds e)) :
    x >>= f = .error e ↔ FirstFails fails (cs ++ ds) e := by
  rw [firstFails_append_iff, bind_eq_error_iff, hx]
  refine or_congr_right ?_
  have hpasses : (∀ c ∈ cs, ∀ e', ¬fails c e') ↔ ∃ a, x = .ok a := by
    rw [← not_iff_not]
    push Not
    rw [← exists_firstFails_iff]
    cases x with
    | ok a => simp [← hx]
    | error e' => exact ⟨fun _ _ => nofun, fun _ => ⟨e', (hx e').mp rfl⟩⟩
  rw [hpasses]
  constructor
  · rintro ⟨a, ha, he⟩
    exact ⟨⟨a, ha⟩, (hf a ha).mp he⟩
  · rintro ⟨⟨a, ha⟩, he⟩
    exact ⟨a, ha, (hf a ha).mpr he⟩

/-- One check before others. -/
theorem bind_eq_error_iff_firstFails_cons {x : Except ε α} {f : α → Except ε β}
    (hx : ∀ e, x = .error e ↔ fails c e)
    (hf : ∀ a, x = .ok a → (f a = .error e ↔ FirstFails fails ds e)) :
    x >>= f = .error e ↔ FirstFails fails (c :: ds) e := by
  have hone : ∀ e, x = .error e ↔ FirstFails fails [c] e := by
    intro e
    rw [hx, firstFails_cons_iff]
    simp [not_firstFails_nil]
  exact bind_eq_error_iff_firstFails hone hf

/-- Two results that are both needed, the first one being looked for first. -/
theorem pair_eq_error_iff_firstFails {γ : Type} {x : Except ε α} {y : Except ε β} {f : α → β → γ}
    (hx : ∀ e, x = .error e ↔ FirstFails fails cs e)
    (hy : ∀ e, y = .error e ↔ FirstFails fails ds e) :
    (do return f (← x) (← y)) = .error e ↔ FirstFails fails (cs ++ ds) e := by
  refine bind_eq_error_iff_firstFails hx fun a _ => ?_
  rw [← hy, bind_eq_error_iff]
  exact or_iff_left (by rintro ⟨b, -, h⟩; cases h)

/-- **A function applied along a list** fails as it does on the first element on which it
fails. -/
theorem mapM_eq_error_iff {f : α → Except ε β} {l : List α} :
    l.mapM f = .error e ↔ FirstFails (fun a e => f a = .error e) l e := by
  induction l with
  | nil => exact ⟨nofun, fun h => (not_firstFails_nil h).elim⟩
  | cons a l ih =>
    rw [List.mapM_cons]
    refine bind_eq_error_iff_firstFails_cons (fun e' => Iff.rfl) fun b _ => ?_
    rw [← ih, bind_eq_error_iff]
    exact or_iff_left (by rintro ⟨results, -, h⟩; cases h)

/-- **A function applied along a list** has results where it has one on every element. -/
theorem mapM_eq_ok_iff {f : α → Except ε β} {l : List α} {results : List β} :
    l.mapM f = .ok results ↔ List.Forall₂ (fun a b => f a = .ok b) l results := by
  induction l generalizing results with
  | nil => simp [pure, Except.pure, eq_comm]
  | cons a l ih =>
    rw [List.mapM_cons, bind_eq_ok_iff, List.forall₂_cons_left_iff]
    refine exists_congr fun b => ?_
    simp only [bind_eq_ok_iff, ih, pure, Except.pure, Except.ok.injEq, @eq_comm _ _ results]
    exact ⟨fun ⟨ha, rest, hrest, h⟩ => ⟨rest, ha, hrest, h⟩,
      fun ⟨rest, ha, hrest, h⟩ => ⟨ha, rest, hrest, h⟩⟩

end FirstFails

/-! ### The first refusal of a run -/

namespace Plan

variable {σ α : Type} {A : Arithmetic} {p : Plan σ α} {e : Error}

/-- **The first refusal of a run** over an arithmetic: of the calls that it makes, in order, the
first that the arithmetic does not answer. -/
def FirstRefused (A : Arithmetic) (p : Plan σ α) (e : Error) : Prop :=
  FirstFails (fun call e => A.apply call.op call.left call.right = .error e) (p.trace A).calls e

theorem Consulting.result_eq_error_iff_from (hp : p.Consulting) (i : Nat) :
    p.result A = .error e ↔
      FirstFails (fun call e => A.apply call.op call.left call.right = .error e)
        (p.run (fun _ => A.apply) i).calls e := by
  induction p generalizing i with
  | done a => exact ⟨nofun, fun h => (not_firstFails_nil h).elim⟩
  | stop held cause => exact hp.elim
  | call held op left right next ih =>
    rw [result, eval, run]
    cases h : A.apply op left right with
    | ok answer =>
      rw [firstFails_cons_iff]
      simp only [h, reduceCtorEq, not_false_eq_true, implies_true, true_and, false_or]
      exact ih answer (hp answer) (i + 1)
    | error cause =>
      rw [firstFails_cons_iff]
      simp [h, not_firstFails_nil, Except.mapError]

/-- **A consulting plan fails as its first refused call does.** -/
theorem Consulting.result_eq_error_iff (hp : p.Consulting) :
    p.result A = .error e ↔ p.FirstRefused A e :=
  hp.result_eq_error_iff_from 0

end Plan

/-! ### Conversions -/

namespace Values

variable {f : Format} {v : Values} {e : Error}

/-- **Numbers that do not convert**: they are reals, and the first of them that has no raw value
in the format is refused with the error. -/
def FirstRefused (f : Format) (v : Values) (e : Error) : Prop :=
  ∃ values, v = .real values ∧ FirstFails (fun x e => f.ofReal x = .error e) values e

theorem scaled_eq_error_iff : v.scaled f = .error e ↔ v.FirstRefused f e := by
  cases v with
  | real values => simp [scaled, FirstRefused, mapM_eq_error_iff]
  | raw values => simp [scaled, FirstRefused]

theorem length_of_scaled {values : List Scaled} (h : v.scaled f = .ok values) :
    values.length = v.length := by
  cases v with
  | real reals => exact (mapM_eq_ok_iff.mp h).length_eq.symm
  | raw raws => rw [← Except.ok.inj h]; rfl

end Values

/-- **The errors of a conversion.** -/
theorem Format.cause_of_ofReal {f : Format} {x : Binary64} {e : Error}
    (h : f.ofReal x = .error e) : e = .notFinite ∨ e = .overflow Format.conversion := by
  rw [ofReal] at h
  cases hx : x.denote with
  | infinite negative =>
    rw [hx] at h
    exact .inl (Except.error.inj h).symm
  | undefined =>
    rw [hx] at h
    exact .inl (Except.error.inj h).symm
  | finite negative significand exponent =>
    simp only [hx] at h
    refine .inr ?_
    cases hf : f.overflow with
    | wrapping =>
      simp only [hf, narrow] at h
      split at h
      · cases h
      · exact (Except.error.inj h).symm
    | saturating =>
      simp only [hf, narrow] at h
      split at h <;> cases h
    | checked =>
      simp only [hf, narrow_checked hf] at h
      split at h
      · split at h
        · cases h
        · exact (Except.error.inj h).symm
      · exact (Except.error.inj h).symm

end ScaledGauss

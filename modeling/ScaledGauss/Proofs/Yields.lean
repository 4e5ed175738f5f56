import Mathlib.Data.List.FinRange
import ScaledGauss.Plan

/-!
# What a plan yields

A plan does not know its arithmetic, and most of what can be said about its result
does not need to know it either: it follows from a property that every answer has –
being exact, being rounded within half a unit, being what a given format computes.
This file therefore runs a plan against a **law**, a relation between an operation,
its two operands and an answer, and collects the results that are reached when each
call gets some answer that the law admits.

The arithmetic comes back as one law among others: a run over it ends in a result
exactly when the plan yields that result under the law *this is its answer*
(`ScaledGauss.Plan.eval_eq_ok_iff`), and a recorded run whose calls all have a
property is the same with the property added
(`ScaledGauss.Plan.run_eq_ok_iff`). Answers that depend on the number of the call have a
law too (`ScaledGauss.Plan.yields_of_run`). A weaker law yields more
(`ScaledGauss.Plan.Yields.mono`), which is how a run over one arithmetic is carried
over to another.

## Main definitions

– `ScaledGauss.Law`: which answers are admitted;
– `ScaledGauss.Plan.Yields`: the results reached under a law;
– `ScaledGauss.Plan.Consulting`: plans that fail only where a call is refused.

## Main results

– `ScaledGauss.Plan.yields_bind_iff`: results of plans in sequence;
– `ScaledGauss.Plan.Yields.foldlM_induction`,
  `ScaledGauss.Plan.Yields.finRange_induction`: an invariant kept by each step of a
  sweep holds at its end;
– `ScaledGauss.Plan.exists_yields_finRange`: a sweep goes through if each step does;
– `ScaledGauss.Plan.eval_error_mono`: a refusal that two arithmetics share ends both
  runs in the same state.
-/

namespace ScaledGauss

/-- **A law of answers**: which answers to an operation on two operands are
admitted. -/
abbrev Law := Op → Scaled → Scaled → Scaled → Prop

/-- The law that admits the answer of an arithmetic and no other. -/
def Arithmetic.Answers (A : Arithmetic) : Law :=
  fun op left right answer => A.apply op left right = .ok answer

namespace Plan

variable {σ τ α β ι : Type} {R Q : Law}

/-! ### Results under a law -/

/-- **What a plan yields** under a law: the results it reaches if every call gets an
answer that the law admits. -/
inductive Yields (R : Law) : Plan σ α → α → Prop
  /-- A finished plan yields its result. -/
  | done (a : α) : Yields R (.done a) a
  /-- A call yields what the rest of the plan yields on an admitted answer. -/
  | call {held : σ} {op : Op} {left right answer : Scaled} {next : Scaled → Plan σ α} {a : α} :
      R op left right answer → Yields R (next answer) a →
      Yields R (.call held op left right next) a

@[simp] theorem yields_done_iff {a b : α} : Yields R (.done a : Plan σ α) b ↔ b = a := by
  constructor
  · rintro ⟨⟩
    rfl
  · rintro rfl
    exact .done b

@[simp] theorem yields_pure_iff {a b : α} : Yields R (pure a : Plan σ α) b ↔ b = a :=
  yields_done_iff

@[simp] theorem not_yields_stop {held : σ} {cause : Error} {a : α} :
    ¬Yields R (.stop held cause : Plan σ α) a := by
  rintro ⟨⟩

@[simp] theorem yields_call_iff {held : σ} {op : Op} {left right : Scaled}
    {next : Scaled → Plan σ α} {a : α} :
    Yields R (.call held op left right next) a ↔
      ∃ answer, R op left right answer ∧ Yields R (next answer) a := by
  constructor
  · rintro (_ | ⟨hr, hy⟩)
    exact ⟨_, hr, hy⟩
  · rintro ⟨answer, hr, hy⟩
    exact .call hr hy

/-- A single call yields the answers that the law admits. -/
@[simp] theorem yields_consult_iff {held : σ} {op : Op} {left right answer : Scaled} :
    Yields R (consult held op left right) answer ↔ R op left right answer := by
  simp [consult]

/-- **Plans in sequence**: what the second yields on something that the first
yields. -/
@[simp] theorem yields_bind_iff {p : Plan σ α} {f : α → Plan σ β} {b : β} :
    Yields R (p >>= f) b ↔ ∃ a, Yields R p a ∧ Yields R (f a) b := by
  change Yields R (p.bind f) b ↔ _
  induction p with
  | done a => simp [bind]
  | stop held cause => simp [bind]
  | call held op left right next ih =>
    simp only [bind, yields_call_iff, ih]
    constructor
    · rintro ⟨answer, hr, a, hp, hf⟩
      exact ⟨a, ⟨answer, hr, hp⟩, hf⟩
    · rintro ⟨a, ⟨answer, hr, hp⟩, hf⟩
      exact ⟨answer, hr, a, hp, hf⟩

/-- What is held has no influence on what is yielded. -/
@[simp] theorem yields_mapHeld_iff {view : σ → τ} {p : Plan σ α} {a : α} :
    Yields R (p.mapHeld view) a ↔ Yields R p a := by
  induction p with
  | done b => simp [mapHeld]
  | stop held cause => simp [mapHeld]
  | call held op left right next ih => simp only [mapHeld, yields_call_iff, ih]

/-- **A weaker law yields more.** -/
theorem Yields.mono (h : ∀ op left right answer, R op left right answer → Q op left right answer)
    {p : Plan σ α} {a : α} (hp : Yields R p a) : Yields Q p a := by
  induction hp with
  | done a => exact .done a
  | call hr _ ih => exact .call (h _ _ _ _ hr) ih

/-! ### Sweeps along a list -/

/-- **The invariant of a sweep**, indexed by the part of the list still to come. -/
theorem Yields.foldlM_induction {f : β → ι → Plan σ β} {I : List ι → β → Prop}
    (step : ∀ x rest c c', I (x :: rest) c → Yields R (f c x) c' → I rest c')
    {l : List ι} {b b' : β} (start : I l b) (h : Yields R (l.foldlM f b) b') : I [] b' := by
  induction l generalizing b with
  | nil =>
    rw [List.foldlM_nil, yields_pure_iff] at h
    exact h ▸ start
  | cons x l ih =>
    rw [List.foldlM_cons, yields_bind_iff] at h
    obtain ⟨c, hx, hl⟩ := h
    exact ih (step x l b c start hx) hl

/-- Two sweeps along a list are one if they agree on its elements. -/
theorem foldlM_congr {f g : β → ι → Plan σ β} {l : List ι}
    (h : ∀ b, ∀ j ∈ l, f b j = g b j) (b : β) : l.foldlM f b = l.foldlM g b := by
  induction l generalizing b with
  | nil => rfl
  | cons j l ih =>
    rw [List.foldlM_cons, List.foldlM_cons, h b j List.mem_cons_self]
    exact congrArg _ (funext (ih fun b j' hj' => h b j' (List.mem_cons_of_mem j hj')))

/-- A sweep whose every step may leave the state alone may leave it alone as a whole. -/
theorem yields_foldlM_self {f : β → ι → Plan σ β} {l : List ι} {b : β}
    (h : ∀ x ∈ l, Yields R (f b x) b) : Yields R (l.foldlM f b) b := by
  induction l with
  | nil => exact yields_pure_iff.mpr rfl
  | cons x l ih =>
    rw [List.foldlM_cons]
    exact yields_bind_iff.mpr
      ⟨b, h x List.mem_cons_self, ih fun y hy => h y (List.mem_cons_of_mem x hy)⟩

/-- A sweep that ends has gone along every initial part of its list. -/
theorem Yields.foldlM_prefix {f : β → ι → Plan σ β} {l l' : List ι} (hl : l' <+: l) {b b' : β}
    (h : Yields R (l.foldlM f b) b') : ∃ c, Yields R (l'.foldlM f b) c := by
  obtain ⟨rest, rfl⟩ := hl
  rw [List.foldlM_append, yields_bind_iff] at h
  obtain ⟨c, hc, -⟩ := h
  exact ⟨c, hc⟩

/-- One more index of all indices. -/
theorem take_finRange_succ {n : Nat} (i : Fin n) :
    (List.finRange n).take (i.val + 1) = (List.finRange n).take i.val ++ [i] := by
  rw [List.take_succ_eq_append_getElem (by simp)]
  simp

/-- **The invariant of a sweep over all indices**, indexed by how many are done. -/
theorem Yields.finRange_induction {n : Nat} {f : β → Fin n → Plan σ β} {I : Nat → β → Prop}
    (step : ∀ (i : Fin n) c c', I i.val c → Yields R (f c i) c' → I (i.val + 1) c')
    {b b' : β} (start : I 0 b) (h : Yields R ((List.finRange n).foldlM f b) b') : I n b' := by
  -- what is still to come is always a final part of the list of indices
  obtain ⟨t, ht, hI⟩ : ∃ t, [] = (List.finRange n).drop t ∧ I (min t n) b' := by
    refine h.foldlM_induction (I := fun rest c => ∃ t, rest = (List.finRange n).drop t ∧
      I (min t n) c) ?_ ⟨0, rfl, by simpa using start⟩
    rintro x rest c c' ⟨t, hl, hc⟩ hy
    have htn : t < n := by
      by_contra hge
      rw [List.drop_of_length_le (by simpa using hge)] at hl
      cases hl
    rw [List.drop_eq_getElem_cons (by simpa using htn)] at hl
    obtain ⟨rfl, rfl⟩ := List.cons.inj hl
    refine ⟨t + 1, rfl, ?_⟩
    rw [Nat.min_eq_left htn.le] at hc
    rw [Nat.min_eq_left htn]
    simpa using step _ c c' (by simpa using hc) hy
  have hn : n ≤ t := by simpa using List.drop_eq_nil_iff.mp ht.symm
  rwa [Nat.min_eq_right hn] at hI

/-- **A sweep over all indices goes through** if each step does, from every state that the steps
before may leave. -/
theorem exists_yields_finRange {n : Nat} {f : β → Fin n → Plan σ β} {I : Nat → β → Prop}
    (step : ∀ (i : Fin n) c, I i.val c → ∃ c', Yields R (f c i) c' ∧ I (i.val + 1) c')
    {b : β} (start : I 0 b) :
    ∃ b', Yields R ((List.finRange n).foldlM f b) b' ∧ I n b' := by
  have key : ∀ t, t ≤ n → ∃ c, Yields R (((List.finRange n).take t).foldlM f b) c ∧ I t c := by
    intro t
    induction t with
    | zero => exact fun _ => ⟨b, yields_pure_iff.mpr rfl, start⟩
    | succ t ih =>
      intro ht
      obtain ⟨c, hc, hI⟩ := ih (Nat.le_of_succ_le ht)
      obtain ⟨c', hc', hI'⟩ := step ⟨t, ht⟩ c hI
      refine ⟨c', ?_, hI'⟩
      rw [take_finRange_succ ⟨t, ht⟩, List.foldlM_append]
      exact yields_bind_iff.mpr ⟨c, hc, by simpa using hc'⟩
  obtain ⟨b', hb', hI⟩ := key n le_rfl
  rw [List.take_of_length_le (by simp)] at hb'
  exact ⟨b', hb', hI⟩

/-! ### Runs over an arithmetic -/

/-- **A run over an arithmetic** ends in a result exactly when the plan yields it under
the arithmetic's own answers. -/
theorem eval_eq_ok_iff {A : Arithmetic} {p : Plan σ α} {a : α} :
    p.eval A = .ok a ↔ Yields A.Answers p a := by
  induction p with
  | done b => simp [eval, eq_comm]
  | stop held cause => simp [eval]
  | call held op left right next ih =>
    rw [yields_call_iff, eval]
    cases h : A.apply op left right with
    | ok answer => simp [Arithmetic.Answers, h, ih]
    | error cause => simp [Arithmetic.Answers, h]

/-- **A recorded run whose calls all have a property** ends in a result exactly when
the plan yields it under answers that are the arithmetic's and have the property. -/
theorem run_eq_ok_iff {A : Arithmetic} {P : Call → Prop} {p : Plan σ α} {a : α} (i : Nat) :
    ((p.run (fun _ => A.apply) i).outcome = .ok a ∧
        ∀ c ∈ (p.run (fun _ => A.apply) i).calls, P c) ↔
      Yields (fun op left right answer =>
        A.Answers op left right answer ∧ P ⟨op, left, right, some answer⟩) p a := by
  induction p generalizing i with
  | done b => simp [run, eq_comm]
  | stop held cause => simp [run]
  | call held op left right next ih =>
    rw [yields_call_iff, run]
    cases h : A.apply op left right with
    | error cause => simp [Arithmetic.Answers, h]
    | ok answer =>
      simp only [Arithmetic.Answers, h, List.forall_mem_cons, Except.ok.injEq]
      constructor
      · rintro ⟨ho, hp, hc⟩
        exact ⟨answer, ⟨rfl, hp⟩, (ih answer (i + 1)).mp ⟨ho, hc⟩⟩
      · rintro ⟨answer', ⟨rfl, hp⟩, hy⟩
        obtain ⟨ho, hc⟩ := (ih answer (i + 1)).mpr hy
        exact ⟨ho, hp, hc⟩

/-- **A run over any answers**, also such as depend on the number of the call, that ends in a
result: the plan yields it under what is answered at some call. -/
theorem yields_of_run {answers : Nat → Op → Scaled → Scaled → Except Error Scaled}
    {p : Plan σ α} {i : Nat} {a : α} (h : (p.run answers i).outcome = .ok a) :
    Yields (fun op left right answer => ∃ t, answers t op left right = .ok answer) p a := by
  induction p generalizing i with
  | done b =>
    obtain rfl : b = a := Except.ok.inj h
    exact .done b
  | stop held cause => cases h
  | call held op left right next ih =>
    rw [run] at h
    cases hanswer : answers i op left right with
    | ok answer =>
      rw [hanswer] at h
      exact .call ⟨i, hanswer⟩ (ih answer h)
    | error cause =>
      rw [hanswer] at h
      cases h

/-- **A refusal that two arithmetics share** ends both runs alike: if every answer of
the first is one of the second, and so is every refusal with a given cause, then a run
over the first that is refused with that cause is refused over the second, holding the
same state. -/
theorem eval_error_mono {A B : Arithmetic} {e : Error}
    (answers : ∀ op left right answer, A.apply op left right = .ok answer →
      B.apply op left right = .ok answer)
    (refusals : ∀ op left right, A.apply op left right = .error e →
      B.apply op left right = .error e)
    {p : Plan σ α} {held : σ} (h : p.eval A = .error ⟨e, held⟩) :
    p.eval B = .error ⟨e, held⟩ := by
  induction p with
  | done a => simp [eval] at h
  | stop held cause => simpa [eval] using h
  | call held' op left right next ih =>
    rw [eval] at h ⊢
    cases hA : A.apply op left right with
    | ok answer =>
      rw [hA] at h
      rw [answers _ _ _ _ hA]
      exact ih answer h
    | error cause =>
      rw [hA] at h
      obtain ⟨rfl, rfl⟩ : cause = e ∧ held' = held := by simpa using h
      rw [refusals _ _ _ hA]

/-! ### Plans that fail only where a call is refused -/

/-- **A consulting plan** has no failure of its own: whatever the answers, it goes on to
a result. -/
def Consulting : Plan σ α → Prop
  | .done _ => True
  | .stop _ _ => False
  | .call _ _ _ _ next => ∀ answer, (next answer).Consulting

@[simp] theorem consulting_pure (a : α) : Consulting (pure a : Plan σ α) := trivial

@[simp] theorem consulting_consult (held : σ) (op : Op) (left right : Scaled) :
    Consulting (consult held op left right) := fun _ => trivial

theorem Consulting.bind {p : Plan σ α} {f : α → Plan σ β} (hp : p.Consulting)
    (hf : ∀ a, (f a).Consulting) : (p >>= f).Consulting := by
  change (p.bind f).Consulting
  induction p with
  | done a => exact hf a
  | stop held cause => exact hp.elim
  | call held op left right next ih => exact fun answer => ih answer (hp answer)

theorem Consulting.foldlM {f : β → ι → Plan σ β} (hf : ∀ b x, (f b x).Consulting)
    (l : List ι) (b : β) : (l.foldlM f b).Consulting := by
  induction l generalizing b with
  | nil => exact consulting_pure b
  | cons x l ih =>
    rw [List.foldlM_cons]
    exact (hf b x).bind ih

/-- **The errors of a consulting plan are refusals**, whatever the answers depend on. -/
theorem Consulting.refusal_of_run_error
    {answers : Nat → Op → Scaled → Scaled → Except Error Scaled} {p : Plan σ α} {i : Nat}
    {s : Stopped σ} (hp : p.Consulting) (h : (p.run answers i).outcome = .error s) :
    ∃ t op left right, answers t op left right = .error s.cause := by
  induction p generalizing i with
  | done a => cases h
  | stop held cause => exact hp.elim
  | call held op left right next ih =>
    rw [run] at h
    cases hanswer : answers i op left right with
    | ok answer =>
      rw [hanswer] at h
      exact ih answer (hp answer) h
    | error cause =>
      rw [hanswer] at h
      obtain rfl : s = ⟨cause, held⟩ := (Except.error.inj h).symm
      exact ⟨i, op, left, right, hanswer⟩

/-- **The errors of a consulting plan are refusals of the arithmetic.** -/
theorem Consulting.refusal_of_eval_error {A : Arithmetic} {p : Plan σ α} {s : Stopped σ}
    (hp : p.Consulting) (h : p.eval A = .error s) :
    ∃ op left right, A.apply op left right = .error s.cause := by
  rw [← outcome_run A 0] at h
  obtain ⟨-, hrefused⟩ := hp.refusal_of_run_error h
  exact hrefused

end Plan

end ScaledGauss

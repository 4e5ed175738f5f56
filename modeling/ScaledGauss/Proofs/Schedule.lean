import Mathlib.Order.Interval.Finset.Fin
import Mathlib.Tactic.Ring
import ScaledGauss.Proofs.Solve

/-!
# The schedule of operations

A solve branches on its data: the scan of a step exchanges rows or does not. Which
operations it asks for, and in which order, is nevertheless fixed in advance. This file
writes that order down, as a function of the dimension and of nothing else
(`ScaledGauss.Schedule`), and shows that every run keeps to it, whatever the coefficients
are and however its calls are answered.

The argument does not look at runs at all. A plan **follows** a list of operations
(`ScaledGauss.Plan.Follows`) if it asks for them one after the other, for all answers
alike; plans in sequence follow one list after the other, and a sweep follows what its
steps follow. What a run of such a plan can do is then said once
(`ScaledGauss.Plan.Follows.finished`, `ScaledGauss.Plan.Follows.failed`): it asks for the
whole list, or for an initial part that ends with the refused call.

## Main definitions

– `ScaledGauss.Schedule.elimination`, `ScaledGauss.Schedule.substitution`: the schedules;
– `ScaledGauss.Plan.Follows`: a plan keeps to a schedule;
– `ScaledGauss.LinearSystem.Conforms`: what a recorded run has to do with a schedule.

## Main results

– `ScaledGauss.Augmented.follows_eliminate`, `ScaledGauss.Augmented.follows_backSubstitute`;
– `ScaledGauss.Schedule.length_elimination`, `ScaledGauss.Schedule.length_substitution`: the
  numbers of calls;
– `ScaledGauss.LinearSystem.schedule_of_dimension`: all runs of a dimension.
-/

namespace ScaledGauss

open Plan

/-! ### The schedules -/

namespace Schedule

/-- The operations of the reduction of a row in a given number of columns. -/
def reduction (columns : Nat) : List Op :=
  .divide :: (List.replicate columns [Op.multiply, Op.subtract]).flatten

/-- **The schedule of an elimination**: the first step reduces every row but one, in the
columns of all unknowns and of the right-hand side; the others are an elimination with one
unknown less. -/
def elimination : Nat → List Op
  | 0 => []
  | n + 1 => (List.replicate n (reduction (n + 2))).flatten ++ elimination n

/-- The operations that find an unknown with a given number of unknowns below it. -/
def unknown : Nat → List Op
  | 0 => [.divide]
  | below + 1 =>
    (List.replicate (below + 1) [Op.multiply, Op.add]).flatten ++ [.subtract, .divide]

/-- **The schedule of a back substitution**: each unknown has one more below it than the
last. -/
def substitution : Nat → List Op
  | 0 => []
  | n + 1 => substitution n ++ unknown n

theorem length_reduction (columns : Nat) : (reduction columns).length = 2 * columns + 1 := by
  simp [reduction, Nat.mul_comm]

/-- **How many calls an elimination makes.** -/
theorem length_elimination (n : Nat) :
    6 * (elimination n).length = n * (n - 1) * (4 * n + 13) := by
  induction n with
  | zero => rfl
  | succ n ih =>
    have hlength : (elimination (n + 1)).length = n * (2 * n + 5) + (elimination n).length := by
      simp only [elimination, List.length_append, List.length_flatten, List.map_replicate,
        List.sum_replicate_nat, length_reduction]
      ring
    rw [hlength, Nat.mul_add, ih]
    cases n with
    | zero => rfl
    | succ n =>
      simp only [Nat.add_sub_cancel]
      ring

/-- **How many calls a back substitution makes.** -/
theorem length_substitution (n : Nat) : (substitution n).length = n * n + n - 1 := by
  have hunknown : ∀ below, (unknown (below + 1)).length = 2 * below + 4 := by
    intro below
    simp [unknown]
    omega
  induction n with
  | zero => rfl
  | succ n ih =>
    rw [substitution, List.length_append, ih]
    cases n with
    | zero => rfl
    | succ n =>
      have hsquare : (n + 1 + 1) * (n + 1 + 1) = (n + 1) * (n + 1) + (2 * n + 3) := by ring
      rw [hunknown, hsquare]
      omega

end Schedule

/-! ### Plans on a schedule -/

namespace Plan

variable {σ τ α β ι : Type}

/-- **A plan that follows a schedule** asks for the operations of the list, one after the
other, whatever the answers are, and has no failure of its own. -/
inductive Follows : Plan σ α → List Op → Prop
  /-- A finished plan asks for nothing. -/
  | done (a : α) : Follows (.done a) []
  /-- A call is the first of the list, and every answer leads on to the others. -/
  | call {held : σ} {op : Op} {left right : Scaled} {next : Scaled → Plan σ α} {ops : List Op} :
      (∀ answer, Follows (next answer) ops) → Follows (.call held op left right next) (op :: ops)

theorem follows_consult (held : σ) (op : Op) (left right : Scaled) :
    (consult held op left right).Follows [op] :=
  .call fun answer => .done answer

/-- **Plans in sequence** follow one schedule after the other. -/
theorem Follows.bind {p : Plan σ α} {f : α → Plan σ β} {ops rest : List Op}
    (hp : p.Follows ops) (hf : ∀ a, (f a).Follows rest) : (p >>= f).Follows (ops ++ rest) := by
  change (p.bind f).Follows (ops ++ rest)
  induction hp with
  | done a => exact hf a
  | call _ ih => exact .call ih

/-- **A sweep** follows the schedules of its steps. -/
theorem Follows.foldlM {f : β → ι → Plan σ β} {ops : ι → List Op} {l : List ι}
    (h : ∀ b, ∀ x ∈ l, (f b x).Follows (ops x)) (b : β) :
    (l.foldlM f b).Follows (l.flatMap ops) := by
  induction l generalizing b with
  | nil => exact .done b
  | cons x l ih =>
    rw [List.foldlM_cons, List.flatMap_cons]
    exact (h b x List.mem_cons_self).bind (ih fun b y hy => h b y (List.mem_cons_of_mem x hy))

/-- A sweep whose steps are all alike. -/
theorem Follows.foldlM_replicate {f : β → ι → Plan σ β} {ops : List Op} {l : List ι}
    (h : ∀ b, ∀ x ∈ l, (f b x).Follows ops) (b : β) :
    (l.foldlM f b).Follows (List.replicate l.length ops).flatten := by
  have hsweep : (l.foldlM f b).Follows (l.flatMap fun _ => ops) := Follows.foldlM h b
  rwa [List.flatMap_def, List.map_const'] at hsweep

/-- What is held has no influence on what is asked for. -/
theorem Follows.mapHeld {p : Plan σ α} {ops : List Op} (view : σ → τ) (h : p.Follows ops) :
    (p.mapHeld view).Follows ops := by
  induction h with
  | done a => exact .done a
  | call _ ih => exact .call ih

/-! ### Runs on a schedule -/

/-- The operations asked for in a recorded run, in order. -/
def Trace.ops (t : Trace σ α) : List Op := t.calls.map Call.op

variable {answers : Nat → Op → Scaled → Scaled → Except Error Scaled} {p : Plan σ α}
  {ops : List Op}

/-- **A run that ends** has asked for the whole schedule. -/
theorem Follows.finished (h : p.Follows ops) {i : Nat} {a : α}
    (ha : (p.run answers i).outcome = .ok a) : (p.run answers i).ops = ops := by
  induction h generalizing i with
  | done b => rfl
  | @call _ op left right next ops _ ih =>
    rw [run] at ha ⊢
    cases hA : answers i op left right with
    | error cause =>
      rw [hA] at ha
      cases ha
    | ok answer =>
      rw [hA] at ha
      exact congrArg (op :: ·) (ih answer ha)

/-- **A run that fails** has asked for an initial part of the schedule, up to the refused
call. -/
theorem Follows.failed (h : p.Follows ops) {i : Nat} {stopped : Stopped σ}
    (hs : (p.run answers i).outcome = .error stopped) :
    (p.run answers i).ops ≠ [] ∧ (p.run answers i).ops <+: ops := by
  induction h generalizing i with
  | done b => cases hs
  | @call _ op left right next ops _ ih =>
    rw [run] at hs ⊢
    cases hA : answers i op left right with
    | error cause => exact ⟨List.cons_ne_nil _ _, ⟨ops, rfl⟩⟩
    | ok answer =>
      rw [hA] at hs
      obtain ⟨-, hprefix⟩ := ih answer hs
      exact ⟨List.cons_ne_nil _ _, List.cons_prefix_cons.mpr ⟨rfl, hprefix⟩⟩

end Plan

/-! ### The procedures on their schedules -/

theorem length_columnsFrom {n : Nat} (i : Fin n) : (columnsFrom i).length = n + 1 - i := by
  have hcols : (columnsFrom i).toFinset = Finset.Ici i.castSucc := by
    ext j
    simp
  rw [← List.toFinset_card_of_nodup (nodup_columnsFrom i), hcols, Fin.card_Ici]
  rfl

/-- Steps that are fewer by one row each make up the schedule of an elimination. -/
theorem Schedule.elimination_eq (n : Nat) :
    elimination n = (List.finRange n).flatMap fun i : Fin n =>
      (List.replicate (n - 1 - i) (reduction (n + 1 - i))).flatten := by
  induction n with
  | zero => rfl
  | succ n ih =>
    rw [elimination, ih, List.finRange_succ, List.flatMap_cons, List.flatMap_map]
    simp [Nat.sub_sub, Nat.add_comm 1]

/-- Unknowns from the last to the first make up the schedule of a back substitution. -/
theorem Schedule.substitution_eq (n : Nat) :
    substitution n = (List.finRange n).reverse.flatMap fun i : Fin n => unknown (n - 1 - i) := by
  induction n with
  | zero => rfl
  | succ n ih =>
    rw [substitution, ih, List.finRange_succ, List.reverse_cons, List.flatMap_append,
      ← List.map_reverse, List.flatMap_map]
    simp [Nat.sub_sub, Nat.add_comm 1]

theorem Stage.follows_reduceRow {n : Nat} (i : Fin n) (pivot : Scaled) (S : Stage n) (k : Fin n) :
    (reduceRow i pivot S k).Follows (Schedule.reduction (n + 1 - i)) := by
  rw [← length_columnsFrom]
  refine (follows_consult _ _ _ _).bind fun factor => Follows.foldlM_replicate (fun S j _ => ?_) _
  refine (follows_consult _ .multiply _ _).bind fun product => ?_
  exact (follows_consult _ .subtract _ _).bind fun difference => .done _

namespace Augmented

variable {n : Nat} {σ : Type}

/-- **An elimination follows its schedule**; the scans ask for nothing. -/
theorem follows_eliminate (one zero : Scaled) (a : Augmented n) :
    (a.eliminate one zero).Follows (Schedule.elimination n) := by
  rw [Schedule.elimination_eq]
  refine Follows.foldlM (fun S i _ => ?_) _
  rw [← Grid.length_rowsBelow i]
  exact Follows.foldlM_replicate (fun S k _ => S.follows_reduceRow i _ k) _

theorem follows_substitute (held : σ) (zero : Scaled) (a : Augmented n) (x : Column n)
    (i : Fin n) :
    (a.substitute held zero x i).Follows (Schedule.unknown (n - 1 - i)) := by
  have hquotient : ∀ dividend, (consult held .divide dividend (a.entry i i.castSucc) >>=
      fun unknown => pure (x.set i.val unknown i.isLt)).Follows [.divide] :=
    fun dividend => (follows_consult _ _ _ _).bind fun unknown => .done _
  rw [substitute, dividend]
  by_cases hi : i.val + 1 = n
  · -- the last row has no unknown below it
    rw [if_pos hi, show n - 1 - i.val = 0 by omega]
    exact hquotient _
  · obtain ⟨below, hbelow⟩ : ∃ below, n - 1 - i.val = below + 1 := ⟨n - 2 - i, by omega⟩
    have hsum : (a.weightedSum held zero x i).Follows
        (List.replicate (below + 1) [Op.multiply, Op.add]).flatten := by
      rw [← hbelow, ← Grid.length_rowsBelow i]
      refine Follows.foldlM_replicate (fun sum j _ => ?_) _
      exact (follows_consult _ .multiply _ _).bind fun product => follows_consult _ _ _ _
    rw [if_neg hi, hbelow, Schedule.unknown]
    have hdividend := hsum.bind fun sum => follows_consult held .subtract (a.rhs.get i) sum
    rw [List.append_cons]
    exact hdividend.bind hquotient

/-- **A back substitution follows its schedule.** -/
theorem follows_backSubstitute (held : σ) (zero : Scaled) (a : Augmented n) :
    (a.backSubstitute held zero).Follows (Schedule.substitution n) := by
  rw [Schedule.substitution_eq]
  exact Follows.foldlM (fun x i _ => a.follows_substitute held zero x i) _

/-- **A solve follows the two schedules in sequence.** -/
theorem follows_solve (one zero : Scaled) (a : Augmented n) :
    (a.solve one zero).Follows (Schedule.elimination n ++ Schedule.substitution n) := by
  refine (a.follows_eliminate one zero).bind fun S => ?_
  have hsolution := (S.system.follows_backSubstitute S zero).bind fun x =>
    Follows.done (σ := Stage n) (S, x)
  rwa [List.append_nil] at hsolution

end Augmented

/-! ### Systems of any shape -/

namespace LinearSystem

/-- **A recorded run on a system conforms to a schedule**: a run that returns has asked for
exactly its operations; a run that fails has asked for an initial part, which is empty if the
system has not the right shape and otherwise is not. -/
structure Conforms {σ α : Type} (s : LinearSystem) (schedule : List Op) (t : Trace σ α) :
    Prop where
  /-- A run that returns. -/
  finished : ∀ a, t.outcome = .ok a → t.ops = schedule
  /-- A run that fails on a system of the right shape. -/
  failed : ∀ stopped, t.outcome = .error stopped →
    (∃ a, s.augmented = .ok a) → t.ops ≠ [] ∧ t.ops <+: schedule
  /-- A run on any other system. -/
  unchecked : ∀ cause, s.augmented = .error cause →
    t.ops = [] ∧ ∃ stopped, t.outcome = .error stopped ∧ stopped.cause = cause

variable {α : Type} {s : LinearSystem} {schedule : List Op}

/-- A plan that follows a schedule on a system of the right shape, and stops at once on any
other, conforms to it. -/
theorem conforms_of_follows {p : Plan Remains α}
    (hshape : ∀ a, s.augmented = .ok a → p.Follows schedule)
    (hstop : ∀ cause, s.augmented = .error cause → p = .stop ⟨s, []⟩ cause)
    (answers : Nat → Op → Scaled → Scaled → Except Error Scaled) :
    s.Conforms schedule (p.run answers 0) := by
  cases h : s.augmented with
  | ok a =>
    have hfollows := hshape a h
    refine ⟨fun b hb => hfollows.finished hb, fun stopped hs _ => hfollows.failed hs, ?_⟩
    rintro cause hcause
    cases h.symm.trans hcause
  | error cause =>
    rw [hstop cause h]
    refine ⟨?_, ?_, ?_⟩
    · rintro b ⟨⟩
    · rintro stopped - ⟨a, ha⟩
      cases h.symm.trans ha
    · intro cause' hcause'
      exact ⟨rfl, _, rfl, Except.error.inj (h.symm.trans hcause')⟩

theorem conforms_afterCheck {procedure : Augmented s.rows → Plan (Stage s.rows) α}
    (h : ∀ a, (procedure a).Follows schedule)
    (answers : Nat → Op → Scaled → Scaled → Except Error Scaled) :
    s.Conforms schedule ((s.afterCheck procedure).run answers 0) := by
  refine conforms_of_follows (fun a ha => ?_) (fun cause hcause => ?_) answers
  · rw [afterCheck_of_augmented ha]
    exact (h a).mapHeld remains
  · rw [afterCheck, hcause]

/-- **The schedule of operations depends on the dimension only.** Whatever the coefficients
are and however the calls are answered, a run of elimination, of back substitution or of both
that returns has asked for the operations of one and the same list, which is written down for
the dimension alone and has a known length; a run that fails has asked for an initial part of
it, with at least the refused call, unless the shape is wrong and it has asked for nothing. -/
theorem schedule_of_dimension (s : LinearSystem) (one zero : Scaled)
    (answers : Nat → Op → Scaled → Scaled → Except Error Scaled) :
    s.Conforms (Schedule.elimination s.rows) ((s.eliminate one zero).run answers 0) ∧
    s.Conforms (Schedule.substitution s.rows) ((s.backSubstitute zero).run answers 0) ∧
    s.Conforms (Schedule.elimination s.rows ++ Schedule.substitution s.rows)
      ((s.solve one zero).run answers 0) ∧
    6 * (Schedule.elimination s.rows).length = s.rows * (s.rows - 1) * (4 * s.rows + 13) ∧
    (Schedule.substitution s.rows).length = s.rows * s.rows + s.rows - 1 := by
  refine ⟨conforms_afterCheck (fun a => a.follows_eliminate one zero) answers, ?_,
    conforms_afterCheck (fun a => a.follows_solve one zero) answers,
    Schedule.length_elimination _, Schedule.length_substitution _⟩
  refine conforms_of_follows (fun a ha => ?_) (fun cause hcause => ?_) answers
  · rw [backSubstitute_of_augmented ha]
    exact a.follows_backSubstitute _ zero
  · rw [backSubstitute, hcause]

/-- Two systems of one dimension: the first is solved with two exchanges, the second is
singular. -/
def scheduledSystems : Augmented 3 × Augmented 3 := (
  .join #v[#v[⟨4⟩, ⟨9⟩, ⟨-2⟩], #v[⟨8⟩, ⟨2⟩, ⟨6⟩], #v[⟨3⟩, ⟨15⟩, ⟨7⟩]] #v[⟨5⟩, ⟨-8⟩, ⟨20⟩],
  .join #v[#v[⟨4⟩, ⟨4⟩, ⟨-2⟩], #v[⟨4⟩, ⟨4⟩, ⟨6⟩], #v[⟨4⟩, ⟨4⟩, ⟨7⟩]] #v[⟨5⟩, ⟨-8⟩, ⟨20⟩])

/-- The arithmetic in which they are solved: two fractional bits, to nearest, wrapping. -/
def scheduledArithmetic : Arithmetic :=
  Format.arithmetic {
    fracBits := 2
    rounding := .nearest
    overflow := .wrapping
    fracBits_le := two_le_maxFracBits }

/-- The solve of a system of dimension three in that arithmetic. -/
def scheduledRun (a : Augmented 3) : Trace Remains (Stage 3 × Column 3) :=
  ((ofAugmented a).solve scheduledArithmetic.one scheduledArithmetic.zero).trace
    scheduledArithmetic

theorem schedule_of_dimension_three :
    (∃ r, (scheduledRun scheduledSystems.1).outcome = .ok r ∧ r.1.swaps = [⟨0, 1⟩, ⟨1, 2⟩]) ∧
    (scheduledRun scheduledSystems.1).ops =
      Schedule.elimination 3 ++ Schedule.substitution 3 ∧
    6 * (Schedule.elimination 3).length = 3 * 2 * 25 ∧ (Schedule.substitution 3).length = 11 ∧
    (∃ stopped, (scheduledRun scheduledSystems.2).outcome = .error stopped ∧
      stopped.cause = .divisionByZero) ∧
    (scheduledRun scheduledSystems.2).ops ≠ [] ∧
    (scheduledRun scheduledSystems.2).ops <+:
      Schedule.elimination 3 ++ Schedule.substitution 3 := by
  have hreturned : (scheduledRun scheduledSystems.1).outcome.toOption.map
      (fun r => r.1.swaps) = some [⟨0, 1⟩, ⟨1, 2⟩] := by
    decide +kernel
  obtain ⟨r, hr, hswaps⟩ := exists_ok_of_view hreturned
  have hcause : ((scheduledRun scheduledSystems.2).outcome.mapError Stopped.cause).map
      (fun _ => ()) = .error .divisionByZero := by
    decide +kernel
  have hrefused : (scheduledRun scheduledSystems.2).outcome.mapError Stopped.cause =
      .error .divisionByZero := by
    cases h : (scheduledRun scheduledSystems.2).outcome.mapError Stopped.cause with
    | ok r => simp [h, Except.map] at hcause
    | error e => simpa [h, Except.map] using hcause
  obtain ⟨stopped, hstopped, hzero⟩ := mapError_eq_error_iff.mp hrefused
  have hshape : ∃ a, (ofAugmented scheduledSystems.2).augmented = .ok a :=
    ⟨_, augmented_ofAugmented (by decide) _⟩
  obtain ⟨-, -, hsolve, helimination, hsubstitution⟩ :=
    schedule_of_dimension (ofAugmented scheduledSystems.1) scheduledArithmetic.one
      scheduledArithmetic.zero fun _ => scheduledArithmetic.apply
  obtain ⟨-, -, hsingular, -⟩ :=
    schedule_of_dimension (ofAugmented scheduledSystems.2) scheduledArithmetic.one
      scheduledArithmetic.zero fun _ => scheduledArithmetic.apply
  obtain ⟨hops, hprefix⟩ := hsingular.failed stopped hstopped hshape
  exact ⟨⟨r, hr, hswaps⟩, hsolve.finished r hr, helimination, hsubstitution,
    ⟨stopped, hstopped, hzero⟩, hops, hprefix⟩

end LinearSystem

end ScaledGauss

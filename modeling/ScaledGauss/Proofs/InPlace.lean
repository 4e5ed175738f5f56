import ScaledGauss.Format.Arithmetic
import ScaledGauss.Proofs.Elimination
import ScaledGauss.Proofs.Refusal

/-!
# Elimination in one memory

A plan says at every call what it holds there, and that is what a failed run leaves behind.
This file shows that the elimination tells the truth about it. It is written once more, as a
program that works **in place** (`ScaledGauss.InPlace`): there is one memory, which is read
and overwritten; a refused call ends the program, and the memory stays as it is at that
moment. Nothing in this program says what is held where.

Program and plan make the same calls, and at every call the memory is what the plan says it
holds (`ScaledGauss.InPlace.realizes_eliminate`). The proof goes along the program: each of
its statements realizes a plan, and so do statements in sequence and loops. What is known of
plans that are refused a call is then known of the memory, too
(`ScaledGauss.InPlace.endsAt_of_realizes`).

## Main definitions

– `ScaledGauss.Workspace`, `ScaledGauss.InPlace`: a memory and the programs on it;
– `ScaledGauss.InPlace.eliminate`: the elimination;
– `ScaledGauss.InPlace.Realizes`: a program does what a plan says.

## Main results

– `ScaledGauss.InPlace.Realizes.seq`, `ScaledGauss.InPlace.Realizes.forM`: programs in
  sequence and loops;
– `ScaledGauss.InPlace.run_eliminate_eq_recorded`: the recorded runs of an elimination are
  those of the elimination in place.
-/

namespace ScaledGauss

open Plan

/-! ### Programs in one memory -/

/-- **A memory at work**, with the calls made so far and what the memory was at each. -/
structure Workspace (σ : Type) where
  /-- The memory as it is now. -/
  now : σ
  /-- The calls, in order, and the memory at each. -/
  seen : List (σ × Call)

/-- **Programs in one memory**: a program that fails leaves it as it is at that moment. -/
abbrev InPlace (σ : Type) := EStateM Error (Workspace σ)

namespace InPlace

variable {σ α ι : Type} (answers : Nat → Op → Scaled → Scaled → Except Error Scaled)

/-- Something read off the memory. -/
def read (view : σ → α) : InPlace σ α := return view (← get).now

/-- The memory overwritten. -/
def write (f : σ → σ) : InPlace σ Unit := modify fun w => { w with now := f w.now }

/-- A call noted, together with the memory. -/
def note (call : Call) : InPlace σ Unit :=
  modify fun w => { w with seen := w.seen ++ [(w.now, call)] }

/-- **A call**; a refusal ends the program. -/
def ask (op : Op) (left right : Scaled) : InPlace σ Scaled := do
  match answers (← get).seen.length op left right with
  | .ok answer =>
    note ⟨op, left, right, some answer⟩
    return answer
  | .error cause =>
    note ⟨op, left, right, none⟩
    throw cause

/-! ### The elimination -/

section Elimination

variable {n : Nat}

/-- One comparison of the scan at step `i`. -/
def compare (i k : Fin n) : InPlace (Stage n) Unit := do
  if (← read (·.coefficient i i)) < (← read (·.coefficient k i)) then
    write (·.exchange i k)

/-- The entry of row `k` in column `j`, less the multiple of the pivot row's. -/
def reduceEntry (i k : Fin n) (factor : Scaled) (j : Fin (n + 1)) : InPlace (Stage n) Unit := do
  let product ← ask answers .multiply factor (← read (·.system.entry i j))
  let difference ← ask answers .subtract (← read (·.system.entry k j)) product
  write fun S => { S with system := S.system.setEntry k j difference }

/-- The reduction of row `k` by row `i`. -/
def reduceRow (i : Fin n) (pivot : Scaled) (k : Fin n) : InPlace (Stage n) Unit := do
  let factor ← ask answers .divide (← read (·.coefficient k i)) pivot
  write fun S => { S with lower := S.lower.setEntry k i factor }
  (columnsFrom i).forM (reduceEntry answers i k factor)

/-- Step `i`: the scan, then the reduction of the rows below. -/
def step (i : Fin n) : InPlace (Stage n) Unit := do
  (rowsBelow i).forM (compare i)
  let pivot ← read (·.coefficient i i)
  (rowsBelow i).forM (reduceRow answers i pivot)

/-- **The elimination of the system in the memory.** -/
def eliminate : InPlace (Stage n) Unit := (List.finRange n).forM (step answers)

end Elimination

/-! ### Realizing a plan -/

/-- What an observed run leaves of a workspace with given calls. -/
def leaving (seen : List (σ × Call)) (o : Observation σ σ) :
    EStateM.Result Error (Workspace σ) Unit :=
  match o.outcome with
  | .ok s => .ok () ⟨s, seen ++ o.seen⟩
  | .error stopped => .error stopped.cause ⟨stopped.held, seen ++ o.seen⟩

/-- **A program that realizes a plan**: from every workspace, it makes the calls of the plan,
its memory at every call is what the plan says it holds, and it ends as the plan does. -/
def Realizes (x : InPlace σ Unit) (p : σ → Plan σ σ) : Prop :=
  ∀ w : Workspace σ, x.run w = leaving w.seen ((p w.now).observe answers w.seen.length)

variable {answers} {x y : InPlace σ Unit} {p q : σ → Plan σ σ}

theorem leaving_done (seen : List (σ × Call)) (s : σ) :
    leaving seen ⟨[], .ok s⟩ = .ok () ⟨s, seen⟩ := by
  rw [leaving, List.append_nil]

/-- Calls seen before the rest of a run belong to the workspace that the rest starts from. -/
theorem leaving_append (seen before : List (σ × Call)) (rest : Observation σ σ) :
    leaving seen ⟨before ++ rest.seen, rest.outcome⟩ = leaving (seen ++ before) rest := by
  rw [leaving, leaving, List.append_assoc]

theorem run_ask (w : Workspace σ) (op : Op) (left right : Scaled) :
    (ask answers op left right).run w = match answers w.seen.length op left right with
      | .ok answer => .ok answer ⟨w.now, w.seen ++ [(w.now, ⟨op, left, right, some answer⟩)]⟩
      | .error cause => .error cause ⟨w.now, w.seen ++ [(w.now, ⟨op, left, right, none⟩)]⟩ := by
  rw [ask, EStateM.run_bind, EStateM.run_get]
  dsimp only
  cases answers w.seen.length op left right <;> rfl

/-- Overwriting the memory takes no call. -/
theorem realizes_write (f : σ → σ) : Realizes answers (write f) fun s => pure (f s) :=
  fun w => (leaving_done w.seen (f w.now)).symm

/-- Doing nothing takes no call either. -/
theorem realizes_pure : Realizes answers (pure () : InPlace σ Unit) fun s => pure s :=
  fun w => (leaving_done w.seen w.now).symm

/-- What is read is part of the memory at that moment. -/
theorem realizes_read_bind (view : σ → α) {y : α → InPlace σ Unit} {q : α → σ → Plan σ σ}
    (h : ∀ a, Realizes answers (y a) (q a)) :
    Realizes answers (read view >>= y) fun s => q (view s) s :=
  fun w => h (view w.now) w

/-- **A call** is made with the present memory, and the program goes on with the answer. -/
theorem realizes_ask_bind {op : Op} {left right : Scaled} {y : Scaled → InPlace σ Unit}
    {q : Scaled → σ → Plan σ σ} (h : ∀ answer, Realizes answers (y answer) (q answer)) :
    Realizes answers (ask answers op left right >>= y) fun s =>
      consult s op left right >>= fun answer => q answer s := by
  intro w
  change _ = leaving w.seen ((call w.now op left right fun answer => q answer w.now).observe
    answers w.seen.length)
  rw [EStateM.run_bind, run_ask, observe]
  cases answers w.seen.length op left right with
  | error cause => rfl
  | ok answer =>
    -- the rest starts with one more call seen, and so with the next number
    refine (h answer _).trans ?_
    rw [List.length_append, List.length_singleton]
    exact (leaving_append w.seen [_] _).symm

/-- **Programs in sequence** realize plans in sequence. -/
theorem Realizes.seq (hx : Realizes answers x p) (hy : Realizes answers y q) :
    Realizes answers (x >>= fun _ => y) fun s => p s >>= q := by
  intro w
  rw [EStateM.run_bind, hx w, observe_bind, leaving, Observation.andThen]
  cases (observe answers w.seen.length (p w.now)).outcome with
  | error stopped => rfl
  | ok s =>
    refine (hy _).trans ?_
    rw [List.length_append]
    exact (leaving_append w.seen _ _).symm

/-- **Loops** realize sweeps. -/
theorem Realizes.forM {x : ι → InPlace σ Unit} {f : σ → ι → Plan σ σ}
    (h : ∀ j, Realizes answers (x j) fun s => f s j) (l : List ι) :
    Realizes answers (l.forM x) fun s => l.foldlM f s := by
  induction l with
  | nil => exact realizes_pure
  | cons j l ih => exact (h j).seq ih

/-! ### The elimination realizes its plan -/

section Elimination

variable {n : Nat}

theorem realizes_compare (i k : Fin n) :
    Realizes answers (compare i k) fun S => pure (Stage.compare i S k) := by
  -- the comparison is made in the memory, so the plan, too, branches on what it holds
  have hplan : (fun S : Stage n => (pure (Stage.compare i S k) : Plan (Stage n) (Stage n))) =
      fun S => if S.coefficient i i < S.coefficient k i then pure (S.exchange i k) else pure S :=
    funext fun S => apply_ite pure _ _ _
  rw [hplan, compare]
  refine realizes_read_bind (Stage.coefficient · i i)
    (q := fun a S => if a < S.coefficient k i then pure (S.exchange i k) else pure S) fun a => ?_
  refine realizes_read_bind (Stage.coefficient · k i)
    (q := fun b S => if a < b then pure (S.exchange i k) else pure S) fun b => ?_
  by_cases h : a < b
  · simp only [if_pos h]
    exact realizes_write _
  · simp only [if_neg h]
    exact realizes_pure

theorem realizes_reduceEntry (i k : Fin n) (factor : Scaled) (j : Fin (n + 1)) :
    Realizes answers (reduceEntry answers i k factor j) fun S =>
      Stage.reduceEntry i k factor S j :=
  realizes_read_bind _ fun _ => realizes_ask_bind fun _ => realizes_read_bind _ fun _ =>
    realizes_ask_bind fun _ => realizes_write _

theorem realizes_reduceRow (i k : Fin n) (pivot : Scaled) :
    Realizes answers (reduceRow answers i pivot k) fun S => Stage.reduceRow i pivot S k := by
  refine realizes_read_bind (Stage.coefficient · k i) (q := fun a S =>
    consult S .divide a pivot >>= fun factor => (columnsFrom i).foldlM
      (Stage.reduceEntry i k factor) { S with lower := S.lower.setEntry k i factor }) fun a => ?_
  refine realizes_ask_bind fun factor => ?_
  exact (realizes_write _).seq (Realizes.forM (realizes_reduceEntry i k factor) _)

theorem realizes_step (i : Fin n) : Realizes answers (step answers i) fun S => S.step i := by
  have hscan : Realizes answers ((rowsBelow i).forM (compare i)) fun S => pure (S.scan i) := by
    have hforM : Realizes answers ((rowsBelow i).forM (compare i)) _ :=
      Realizes.forM (realizes_compare i) (rowsBelow i)
    simp only [List.foldlM_pure] at hforM
    exact hforM
  refine hscan.seq (q := fun S => S.reduce i) (realizes_read_bind (Stage.coefficient · i i)
    (q := fun pivot S => (rowsBelow i).foldlM (Stage.reduceRow i pivot) S) fun pivot => ?_)
  exact Realizes.forM (fun k => realizes_reduceRow i k pivot) _

/-- **The elimination in place** realizes the elimination. -/
theorem realizes_eliminate : Realizes answers (eliminate answers) fun S : Stage n =>
    (List.finRange n).foldlM Stage.step S :=
  Realizes.forM realizes_step _

end Elimination

/-! ### What a run leaves behind -/

/-- **A program started** on a memory, with no call made. -/
def startOn (x : InPlace σ Unit) (s : σ) : EStateM.Result Error (Workspace σ) Unit := x.run ⟨s, []⟩

/-- The workspace at the end of a run, whether or not it failed. -/
def workspace : EStateM.Result Error (Workspace σ) Unit → Workspace σ
  | .ok _ w => w
  | .error _ w => w

theorem seen_workspace_leaving (o : Observation σ σ) :
    (workspace (leaving [] o)).seen = o.seen := by
  rw [leaving]
  cases o.outcome <;> rfl

/-- **The refusal of call `t` ends a program there**, if it comes to that call, and does
nothing to it otherwise. -/
structure EndsAt (A : Arithmetic) (t : Nat) (cause : Error)
    (x : (Nat → Op → Scaled → Scaled → Except Error Scaled) → InPlace σ Unit) (s : σ) : Prop where
  /-- A run that makes the call stops with the error. The calls before and the memory at each
  are the ordinary ones, and the memory stays as the ordinary run has it at the call. -/
  refused : ∀ memory call,
    (workspace ((x fun _ => A.apply).startOn s)).seen[t]? = some (memory, call) →
    (x (A.refusing t cause)).startOn s = .error cause ⟨memory,
      (workspace ((x fun _ => A.apply).startOn s)).seen.take t ++ [(memory, call.refused)]⟩
  /-- A run that does not make the call is the ordinary run. -/
  unaffected : (workspace ((x fun _ => A.apply).startOn s)).seen.length ≤ t →
    (x (A.refusing t cause)).startOn s = (x fun _ => A.apply).startOn s

/-- A program that realizes a plan ends at the refusal, since its memory is what is held. -/
theorem endsAt_of_realizes
    {x : (Nat → Op → Scaled → Scaled → Except Error Scaled) → InPlace σ Unit}
    (h : ∀ answers, Realizes answers (x answers) p) (A : Arithmetic) (t : Nat) (cause : Error)
    (s : σ) : EndsAt A t cause x s := by
  have hrun : ∀ answers, (x answers).startOn s = leaving [] ((p s).observe answers 0) :=
    fun answers => h answers _
  constructor
  · intro memory call hseen
    rw [hrun, seen_workspace_leaving] at hseen
    rw [hrun, hrun, seen_workspace_leaving, observe_refusing cause hseen]
    rfl
  · intro ht
    rw [hrun, seen_workspace_leaving] at ht
    rw [hrun, hrun, observe_refusing_of_le cause ht]

/-- What is on record of an elimination in place: its calls, and the state that it ended in or
the system that it left behind. -/
def recorded {n : Nat} :
    EStateM.Result Error (Workspace (Stage n)) Unit → Trace Remains (Stage n)
  | .ok _ w => ⟨w.seen.map Prod.snd, .ok w.now⟩
  | .error cause w => ⟨w.seen.map Prod.snd, .error ⟨cause, LinearSystem.remains w.now⟩⟩

/-- **The plan is the program**: the recorded runs of an elimination are those of the
elimination in place. -/
theorem run_eliminate_eq_recorded {s : LinearSystem} {a : Augmented s.rows}
    (h : s.augmented = .ok a) (one zero : Scaled) :
    (s.eliminate one zero).run answers 0 =
      recorded ((eliminate answers).startOn (.start one zero a)) := by
  have hrun : (eliminate answers).startOn (.start one zero a) =
      leaving [] ((a.eliminate one zero).observe answers 0) := realizes_eliminate _
  rw [LinearSystem.eliminate, LinearSystem.afterCheck_of_augmented h, run_mapHeld, run_eq_observe,
    hrun, leaving]
  cases ((a.eliminate one zero).observe answers 0).outcome <;> rfl

end InPlace

/-- **A refused call ends everything at that point.** Let an arithmetic refuse call number
`t` and answer all others as before. Elimination, back substitution and the solution of a
system, if they come to that call, return the error unchanged: the calls before it are the
ordinary ones, with their answers, and the refused one has the ordinary operands. If they do
not come to it, nothing changes. On a system of the right shape the recorded runs of the
elimination are those of the elimination in place, and what a refusal leaves in its memory is
what the ordinary run has there at call `t`. -/
theorem LinearSystem.refused_call (A : Arithmetic) (s : LinearSystem) (t : Nat) (cause : Error) :
    (s.eliminate A.one A.zero).EndsAt A t cause ∧ (s.backSubstitute A.zero).EndsAt A t cause ∧
    (s.solve A.one A.zero).EndsAt A t cause ∧
    ∀ a, s.augmented = .ok a →
      (∀ answers, (s.eliminate A.one A.zero).run answers 0 =
        InPlace.recorded ((InPlace.eliminate answers).startOn (.start A.one A.zero a))) ∧
      InPlace.EndsAt A t cause (InPlace.eliminate ·) (Stage.start A.one A.zero a) := by
  refine ⟨endsAt cause A t _, endsAt cause A t _, endsAt cause A t _, fun a ha => ⟨?_, ?_⟩⟩
  · intro answers
    exact InPlace.run_eliminate_eq_recorded ha A.one A.zero
  · exact InPlace.endsAt_of_realizes (fun _ => InPlace.realizes_eliminate) A t cause _

/-- A system whose elimination exchanges rows three times and makes twenty-five calls. -/
def midwaySystem : Augmented 3 := .join
  #v[#v[⟨16⟩, ⟨40⟩, ⟨8⟩], #v[⟨48⟩, ⟨80⟩, ⟨24⟩], #v[⟨64⟩, ⟨-32⟩, ⟨5⟩]] #v[⟨64⟩, ⟨112⟩, ⟨9⟩]

/-- The arithmetic in which it is eliminated: four fractional bits, truncating, wrapping. -/
def midwayArithmetic : Arithmetic :=
  Format.arithmetic { fracBits := 4, rounding := .truncate, overflow := .wrapping }

theorem LinearSystem.refused_call_midway :
    (ofAugmented midwaySystem).augmented = .ok midwaySystem ∧
    (∃ S, (InPlace.workspace ((InPlace.eliminate fun _ => midwayArithmetic.apply).startOn
        (.start midwayArithmetic.one midwayArithmetic.zero midwaySystem))).seen[22]? =
          some (S, ⟨.subtract, ⟨7⟩, ⟨9⟩, some ⟨-2⟩⟩) ∧
      S.system.toLists = [[⟨64⟩, ⟨-32⟩, ⟨5⟩, ⟨9⟩], [⟨0⟩, ⟨104⟩, ⟨21⟩, ⟨106⟩],
        [⟨0⟩, ⟨3⟩, ⟨7⟩, ⟨62⟩]] ∧
      (((ofAugmented midwaySystem).eliminate midwayArithmetic.one midwayArithmetic.zero).run
        (midwayArithmetic.refusing 22 .divisionByZero) 0).outcome =
          .error ⟨.divisionByZero, remains S⟩) ∧
    (((ofAugmented midwaySystem).solve midwayArithmetic.one midwayArithmetic.zero).trace
      midwayArithmetic).calls.length = 36 ∧
    ((ofAugmented midwaySystem).solve midwayArithmetic.one midwayArithmetic.zero).run
      (midwayArithmetic.refusing 36 .divisionByZero) 0 =
        ((ofAugmented midwaySystem).solve midwayArithmetic.one midwayArithmetic.zero).trace
          midwayArithmetic := by
  have hshape : (ofAugmented midwaySystem).augmented = .ok midwaySystem :=
    augmented_ofAugmented (by decide) midwaySystem
  refine ⟨hshape, ?_, ?_⟩
  · -- the call before the last entry of the matrix is written
    have hview : ((InPlace.workspace ((InPlace.eliminate fun _ => midwayArithmetic.apply).startOn
        (.start midwayArithmetic.one midwayArithmetic.zero midwaySystem))).seen[22]?).map
          (fun p => (p.1.system.toLists, p.2)) =
        some ([[⟨64⟩, ⟨-32⟩, ⟨5⟩, ⟨9⟩], [⟨0⟩, ⟨104⟩, ⟨21⟩, ⟨106⟩], [⟨0⟩, ⟨3⟩, ⟨7⟩, ⟨62⟩]],
          ⟨.subtract, ⟨7⟩, ⟨9⟩, some ⟨-2⟩⟩) := by
      decide +kernel
    obtain ⟨⟨S, call⟩, hseen, hS⟩ := Option.map_eq_some_iff.mp hview
    obtain ⟨hsystem, rfl⟩ := Prod.mk.inj hS
    obtain ⟨-, -, -, hplace⟩ :=
      refused_call midwayArithmetic (ofAugmented midwaySystem) 22 .divisionByZero
    obtain ⟨hrun, hends⟩ := hplace midwaySystem hshape
    refine ⟨S, hseen, hsystem, ?_⟩
    rw [hrun, hends.refused S _ hseen]
    rfl
  · have hcalls : (((ofAugmented midwaySystem).solve midwayArithmetic.one
        midwayArithmetic.zero).trace midwayArithmetic).calls.length = 36 := by
      decide +kernel
    obtain ⟨-, -, hsolve, -⟩ :=
      refused_call midwayArithmetic (ofAugmented midwaySystem) 36 .divisionByZero
    exact ⟨hcalls, hsolve.unaffected hcalls.le⟩

end ScaledGauss

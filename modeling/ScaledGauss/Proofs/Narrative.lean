import ScaledGauss.Proofs.ReportedError
import ScaledGauss.Proofs.Throughout
import ScaledGauss.Proofs.WholeRows

/-!
# What the log tells about a run

A solve reports each exchange of rows before it makes it. Whether the report is true is a
question about the matrix at that moment, so this file first says what happened, without a
word about events: the **history** of an elimination (`ScaledGauss.Augmented.history`) is the
list of the exchanges that its scans make, each with the system just before it
(`ScaledGauss.Moment`). It is found by going through the rows of each scan with nothing but the
system in hand, and from step to step as long as the steps go through.

The log is then the history told in order: every action of a step adds to the record of
exchanges and to the events what it adds to the history (`ScaledGauss.Stage.Tells`) – an exchange
one moment, a reduction nothing – so this also holds of the state that a refused call leaves
behind (`ScaledGauss.Stage.tells_steps`).

## Main definitions

– `ScaledGauss.Moment`: an exchange about to be made;
– `ScaledGauss.Augmented.history`: the exchanges of an elimination;
– `ScaledGauss.Config.TellsTruly`: a log that tells the history, and nothing else.
-/

namespace ScaledGauss

open Plan

variable {n : Nat}

/-! ### Moments -/

/-- **An exchange about to be made**: the step and the row below, and the system at that
moment. -/
structure Moment (n : Nat) where
  /-- The system before the exchange. -/
  system : Augmented n
  /-- The step, which is also the diagonal row. -/
  step : Fin n
  /-- The row to be exchanged with the diagonal row. -/
  row : Fin n

namespace Moment

/-- The entry in the column of the step that takes the place of the pivot. -/
def entry (m : Moment n) : Scaled := m.system.entry m.row m.step.castSucc

/-- The pivot that gives its place. -/
def pivot (m : Moment n) : Scaled := m.system.entry m.step m.step.castSucc

/-- The system after the exchange. -/
def exchanged (m : Moment n) : Augmented n := m.system.swapFrom m.step m.row m.step

/-- The exchange as it is recorded. -/
def swap (m : Moment n) : Swap := ⟨m.step, m.row⟩

/-- The exchange as it is reported: the step, the row, the entry and the pivot. -/
def event (m : Moment n) : Event := .exceeds m.step m.row m.entry m.pivot

/-- **What two moments in a row have to do with each other**, if they belong to the same step:
the second finds the system as the first has left it, so its pivot is the entry of the first. -/
def Continues (m m' : Moment n) : Prop :=
  m'.step = m.step → m'.system = m.exchanged ∧ m'.pivot = m.entry

end Moment

/-! ### The history of an elimination -/

/-- **The exchanges of a scan** of some rows in the column of step `i`: each entry that exceeds
the pivot at that moment is exchanged with it before the next row is looked at. -/
def Augmented.scanned (i : Fin n) : Augmented n → List (Fin n) → List (Moment n)
  | _, [] => []
  | a, k :: rows =>
    if a.entry i i.castSucc < a.entry k i.castSucc then
      ⟨a, i, k⟩ :: scanned i (a.swapFrom i k i) rows
    else scanned i a rows

/-- The exchanges of some steps in order. A step that is refused an answer is the last one; its
scan came before its first call. -/
def Stage.history (A : Arithmetic) : List (Fin n) → Stage n → List (Moment n)
  | [], _ => []
  | i :: steps, S =>
    S.system.scanned i (rowsBelow i) ++
      match (S.step i).eval A with
      | .ok T => history A steps T
      | .error _ => []

/-- **The history of an elimination**: all exchanges it makes, up to its end or up to the call
that it is refused. -/
def Augmented.history (A : Arithmetic) (a : Augmented n) : List (Moment n) :=
  Stage.history A (List.finRange n) (.start A.one A.zero a)

namespace Augmented

variable {i : Fin n} {a : Augmented n} {rows : List (Fin n)}

/-- Every exchange of a scan brings up a greater entry from below. -/
theorem lt_of_mem_scanned (hrows : ∀ k ∈ rows, i < k) {m : Moment n} (h : m ∈ a.scanned i rows) :
    m.step = i ∧ m.step < m.row ∧ m.pivot < m.entry := by
  induction rows generalizing a with
  | nil => cases h
  | cons k rows ih =>
    have hlater : ∀ k ∈ rows, i < k := fun l hl => hrows l (List.mem_cons_of_mem k hl)
    rw [scanned] at h
    split at h
    · next hlt =>
      rcases List.mem_cons.mp h with rfl | h
      · exact ⟨rfl, hrows k List.mem_cons_self, hlt⟩
      · exact ih hlater h
    · exact ih hlater h

/-- The first exchange of a scan finds the system as it was at the beginning. -/
theorem system_head_scanned {m : Moment n} (h : m ∈ (a.scanned i rows).head?) :
    m.system = a ∧ m.step = i := by
  induction rows with
  | nil => cases h
  | cons k rows ih =>
    rw [scanned] at h
    split at h
    · cases h
      exact ⟨rfl, rfl⟩
    · exact ih h

/-- **The exchanges of a scan** continue one another. -/
theorem isChain_scanned (i : Fin n) (a : Augmented n) (rows : List (Fin n)) :
    (a.scanned i rows).IsChain Moment.Continues := by
  induction rows generalizing a with
  | nil => exact .nil
  | cons k rows ih =>
    rw [scanned]
    split
    · refine List.isChain_cons.mpr ⟨fun m hm _ => ?_, ih _⟩
      obtain ⟨hsystem, hstep⟩ := system_head_scanned hm
      refine ⟨hsystem, ?_⟩
      rw [Moment.pivot, hsystem, hstep, Grid.entry_swapFrom]
      simp [Moment.entry]
    · exact ih a

end Augmented

namespace Stage

variable {A : Arithmetic} {i : Fin n} {S T U : Stage n} {ms ms' : List (Moment n)}

/-- Every exchange of some steps belongs to one of them and brings up a greater entry from
below. -/
theorem lt_of_mem_history {steps : List (Fin n)} {m : Moment n} (h : m ∈ history A steps S) :
    m.step ∈ steps ∧ m.step < m.row ∧ m.pivot < m.entry := by
  induction steps generalizing S with
  | nil => cases h
  | cons i steps ih =>
    rw [history] at h
    rcases List.mem_append.mp h with h | h
    · obtain ⟨hstep, hlt⟩ := Augmented.lt_of_mem_scanned (fun _ => mem_rowsBelow.mp) h
      exact ⟨hstep ▸ List.mem_cons_self, hlt⟩
    · split at h
      · obtain ⟨hstep, hlt⟩ := ih h
        exact ⟨List.mem_cons_of_mem i hstep, hlt⟩
      · cases h

/-- **The exchanges of different steps** continue one another where they belong to the same
step. -/
theorem isChain_history {steps : List (Fin n)} (hsteps : steps.Nodup) (S : Stage n) :
    (history A steps S).IsChain Moment.Continues := by
  induction steps generalizing S with
  | nil => exact .nil
  | cons i steps ih =>
    obtain ⟨hi, hsteps⟩ := List.nodup_cons.mp hsteps
    rw [history]
    split
    · next T _ =>
      refine List.isChain_append.mpr ⟨Augmented.isChain_scanned i _ _, ih hsteps T, ?_⟩
      -- a later step is another one
      intro m hm m' hm' heq
      have hstep := (Augmented.lt_of_mem_scanned (fun _ => mem_rowsBelow.mp)
        (List.mem_of_mem_getLast? hm)).1
      have hstep' := (lt_of_mem_history (List.mem_of_mem_head? hm')).1
      rw [heq, hstep] at hstep'
      exact absurd hstep' hi
    · rw [List.append_nil]
      exact Augmented.isChain_scanned i _ _

/-! ### The history told -/

/-- **Some moments told**: from one state to the next the exchanges have been recorded and the
events reported, in order, and nothing else. -/
structure Tells (S : Stage n) (ms : List (Moment n)) (T : Stage n) : Prop where
  /-- The record of exchanges. -/
  swaps : T.swaps = S.swaps ++ ms.map Moment.swap
  /-- The events. -/
  log : T.log = S.log ++ ms.map Moment.event

theorem tells_self (S : Stage n) : S.Tells [] S where
  swaps := (List.append_nil _).symm
  log := (List.append_nil _).symm

theorem Tells.trans (h : S.Tells ms T) (h' : T.Tells ms' U) : S.Tells (ms ++ ms') U where
  swaps := by rw [h'.swaps, h.swaps, List.map_append, List.append_assoc]
  log := by rw [h'.log, h.log, List.map_append, List.append_assoc]

/-- An exchange tells its moment. -/
theorem tells_exchange (S : Stage n) (i k : Fin n) :
    S.Tells [⟨S.system, i, k⟩] (S.exchange i k) where
  swaps := rfl
  log := rfl

/-- **The scan tells its exchanges.** -/
theorem tells_scan (S : Stage n) (i : Fin n) :
    S.Tells (S.system.scanned i (rowsBelow i)) (S.scan i) := by
  rw [scan]
  generalize rowsBelow i = rows
  induction rows generalizing S with
  | nil => exact S.tells_self
  | cons k rows ih =>
    rw [List.foldl_cons, compare, Augmented.scanned, coefficient, coefficient]
    split
    · exact (S.tells_exchange i k).trans (ih (S.exchange i k))
    · exact ih S

/-- The writes of a reduction tell nothing. -/
theorem writes_tells (S : Stage n) (ms : List (Moment n)) (i : Fin n) : Writes i (S.Tells ms) where
  factor _ _ _ _ h := ⟨h.swaps, h.log⟩
  entry _ _ _ _ _ _ h := ⟨h.swaps, h.log⟩

/-- **A step tells the exchanges of its scan**, also where it is refused an answer. -/
theorem throughout_tells (S : Stage n) (i : Fin n) :
    (S.step i).Throughout (S.Tells (S.system.scanned i (rowsBelow i)))
      (S.Tells (S.system.scanned i (rowsBelow i))) :=
  (S.writes_tells _ i).throughout_reduce (S.tells_scan i)

end Stage

/-- **The state at the end of a run**, whether it is the result or is left behind. -/
def Plan.last {σ : Type} (A : Arithmetic) (p : Plan σ σ) : σ :=
  match p.eval A with
  | .ok s => s
  | .error stopped => stopped.held

/-- What holds throughout a plan holds at the end. -/
theorem Plan.Throughout.of_last {σ : Type} {P : σ → Prop} {p : Plan σ σ} (h : p.Throughout P P)
    (A : Arithmetic) : P (p.last A) := by
  have houtcome : (p.observe (fun _ => A.apply) 0).outcome = p.eval A := by
    rw [← outcome_run A 0, run_eq_observe]
  obtain ⟨hok, herror⟩ := houtcome ▸ h.of_outcome 0
  rw [last]
  split
  · next s hs => exact hok s hs
  · next stopped hs => exact herror stopped hs

theorem Plan.last_bind {σ : Type} (A : Arithmetic) (p : Plan σ σ) (f : σ → Plan σ σ) :
    (p >>= f).last A = match p.eval A with
      | .ok s => (f s).last A
      | .error _ => p.last A := by
  rw [last, last, eval_bind]
  cases p.eval A <;> rfl

namespace Stage

/-- **A run of steps tells its history.** -/
theorem tells_steps (A : Arithmetic) (steps : List (Fin n)) (S : Stage n) :
    S.Tells (history A steps S) ((steps.foldlM step S).last A) := by
  induction steps generalizing S with
  | nil => exact S.tells_self
  | cons i steps ih =>
    have hstep := (S.throughout_tells i).of_last A
    rw [List.foldlM_cons, history, last_bind]
    cases hrun : (S.step i).eval A with
    | ok T =>
      rw [last, hrun] at hstep
      exact hstep.trans (ih T)
    | error stopped =>
      rw [List.append_nil]
      exact hstep

end Stage

/-! ### The log of a solve -/

/-- The events after an elimination: its exchanges once more, if that much is to be reported. -/
def Config.infos (c : Config) : Except Error (Stage c.dimension) → List Event
  | .ok S => c.exchanges S
  | .error _ => []

/-- The event at the end of a solve that has a result. -/
def closing : Except Error Report → List Event
  | .ok report => [.solved report.solution.toList report.residual]
  | .error _ => []

namespace Config

/-- **A log that tells the truth** about the solve of a system. -/
structure TellsTruly (c : Config) (matrix rhs : Array Scaled) (a : Augmented c.dimension) :
    Prop where
  /-- The opening, the history, the exchanges once more if the elimination succeeds, and the end
  if there is a result. -/
  log : (c.solve matrix rhs).log = c.opening :: (a.history c.format.arithmetic).map Moment.event ++
    c.infos (c.eliminate a).outcome ++ closing (c.solve matrix rhs).outcome
  /-- The levels of these parts. -/
  levels : (c.solve matrix rhs).log.map Event.level =
    .debug :: List.replicate (a.history c.format.arithmetic).length .debug ++
      List.replicate (c.infos (c.eliminate a).outcome).length .info ++
      (closing (c.solve matrix rhs).outcome).map fun _ => .trace
  /-- Every exchange brings up a greater entry from below. -/
  exceeds : ∀ m ∈ a.history c.format.arithmetic, m.step < m.row ∧ m.pivot < m.entry
  /-- Within a step every exchange continues the one before. -/
  continues : (a.history c.format.arithmetic).IsChain Moment.Continues
  /-- The exchanges of an elimination that succeeds are those of the history. -/
  eliminated : ∀ S, (c.eliminate a).outcome = .ok S →
    S.swaps = (a.history c.format.arithmetic).map Moment.swap
  /-- The exchanges of a report are those of the history. -/
  reported : ∀ report, (c.solve matrix rhs).outcome = .ok report →
    report.swaps = (a.history c.format.arithmetic).map Moment.swap
  /-- If the elimination is refused an answer, the exchanges made up to that call are those of the
  history. -/
  refused : ∀ stopped, (a.eliminate c.format.arithmetic.one c.format.arithmetic.zero).eval
      c.format.arithmetic = .error stopped →
    (c.solve matrix rhs).outcome = .error stopped.cause ∧
      stopped.held.swaps = (a.history c.format.arithmetic).map Moment.swap
  /-- The verbosity decides about the exchanges told once more, and about nothing else. -/
  verbosity : ∀ v, ({ c with verbosity := v }.solve matrix rhs).outcome =
      (c.solve matrix rhs).outcome ∧
    ({ c with verbosity := v }.solve matrix rhs).log.filter (·.level ≠ Level.info) =
      (c.solve matrix rhs).log.filter (·.level ≠ Level.info)

variable {c : Config} {matrix rhs : Array Scaled} {a : Augmented c.dimension}

/-- The state that an elimination ends in has told its history. -/
theorem tells_eliminate (A : Arithmetic) (a : Augmented n) :
    ((a.eliminate A.one A.zero).last A).swaps = (a.history A).map Moment.swap ∧
      ((a.eliminate A.one A.zero).last A).log = (a.history A).map Moment.event := by
  have h := Stage.tells_steps A (List.finRange n) (.start A.one A.zero a)
  exact ⟨h.swaps, h.log⟩

theorem log_eliminate (c : Config) (a : Augmented c.dimension) :
    (c.eliminate a).log = (a.history c.format.arithmetic).map Moment.event := by
  rw [← (tells_eliminate _ a).2, eliminate, last]
  cases (a.eliminate c.format.arithmetic.one c.format.arithmetic.zero).eval
    c.format.arithmetic <;> rfl

/-- A solve ends with its elimination if that fails. -/
theorem solve_of_eliminate_error (ha : c.assemble matrix rhs = .ok a) {cause : Error}
    (h : (c.eliminate a).outcome = .error cause) :
    c.solve matrix rhs = ⟨c.opening :: (c.eliminate a).log, .error cause⟩ := by
  rw [solve, ha, Logged.quiet_ok_bind, Logged.tell_bind]
  cases hrun : c.eliminate a with
  | mk log outcome =>
    rw [hrun] at h
    obtain rfl : outcome = .error cause := h
    rfl

/-- It goes on with the result of its elimination. -/
theorem solve_of_eliminate (ha : c.assemble matrix rhs = .ok a) {S : Stage c.dimension}
    (h : (c.eliminate a).outcome = .ok S) :
    c.solve matrix rhs =
      ⟨c.opening :: ((c.eliminate a).log ++ (c.finish S).log), (c.finish S).outcome⟩ := by
  rw [solve, ha, Logged.quiet_ok_bind, Logged.tell_bind]
  cases hrun : c.eliminate a with
  | mk log outcome =>
    rw [hrun] at h
    obtain rfl : outcome = .ok S := h
    rfl

/-- **After the elimination** the exchanges are told once more, and a result at the end. -/
theorem finish_eq (c : Config) (S : Stage c.dimension) :
    ∃ outcome : Except Error Report, c.finish S = ⟨c.exchanges S ++ closing outcome, outcome⟩ ∧
      ∀ report, outcome = .ok report → report.swaps = S.swaps := by
  rw [finish, c.tell_exchanges S]
  cases c.backSubstitute S.system with
  | error cause =>
    refine ⟨.error cause, rfl, ?_⟩
    rintro report ⟨⟩
  | ok x =>
    rw [Logged.quiet_ok_bind]
    cases S.upper.upperResidual x.toList S.rhs.toList c.format.fracBits with
    | error cause =>
      refine ⟨.error cause, rfl, ?_⟩
      rintro report ⟨⟩
    | ok residual =>
      refine ⟨.ok ⟨c.dimension, S.upper, S.rhs, S.lower, S.swaps, x, residual⟩, rfl, ?_⟩
      rintro report ⟨⟩
      rfl

/-- **The log of a solve**, in its parts. -/
theorem log_solve (ha : c.assemble matrix rhs = .ok a) :
    (c.solve matrix rhs).log = c.opening :: (a.history c.format.arithmetic).map Moment.event ++
      c.infos (c.eliminate a).outcome ++ closing (c.solve matrix rhs).outcome := by
  rw [← c.log_eliminate a]
  cases hrun : (c.eliminate a).outcome with
  | error cause =>
    rw [solve_of_eliminate_error ha hrun]
    simp [infos, closing]
  | ok S =>
    obtain ⟨outcome, hfinish, -⟩ := c.finish_eq S
    rw [solve_of_eliminate ha hrun, hfinish]
    simp [infos]

theorem level_infos (c : Config) (outcome : Except Error (Stage c.dimension)) :
    (c.infos outcome).map Event.level = List.replicate (c.infos outcome).length .info := by
  refine List.eq_replicate_iff.mpr ⟨List.length_map _, ?_⟩
  cases outcome with
  | error cause => simp [infos]
  | ok S =>
    rw [infos, exchanges]
    split
    · simp [Event.level]
    · simp

theorem level_history (ms : List (Moment n)) :
    (ms.map Moment.event).map Event.level = List.replicate ms.length .debug := by
  refine List.eq_replicate_iff.mpr ⟨by simp, ?_⟩
  simp [Moment.event, Event.level]

theorem level_closing (outcome : Except Error Report) :
    (closing outcome).map Event.level = (closing outcome).map fun _ => .trace := by
  cases outcome <;> rfl

/-- The exchanges of an elimination are those of its history, whichever way it ends. -/
theorem swaps_eliminate (c : Config) (a : Augmented c.dimension) :
    (∀ S, (c.eliminate a).outcome = .ok S →
      S.swaps = (a.history c.format.arithmetic).map Moment.swap) ∧
    ∀ stopped, (a.eliminate c.format.arithmetic.one c.format.arithmetic.zero).eval
        c.format.arithmetic = .error stopped →
      stopped.held.swaps = (a.history c.format.arithmetic).map Moment.swap := by
  have hswaps := (tells_eliminate c.format.arithmetic a).1
  rw [last] at hswaps
  constructor
  · intro S hS
    rw [outcome_eliminate, mapError_eq_ok_iff] at hS
    rw [hS] at hswaps
    exact hswaps
  · intro stopped hstopped
    rw [hstopped] at hswaps
    exact hswaps

/-- The outcome of a solve does not depend on how much is to be reported. -/
theorem outcome_solve_verbosity (c : Config) (matrix rhs : Array Scaled) (v : Nat) :
    ({ c with verbosity := v }.solve matrix rhs).outcome = (c.solve matrix rhs).outcome :=
  ({ c with verbosity := v }.outcome_solve matrix rhs).trans (c.outcome_solve matrix rhs).symm

/-- **The log tells the run truly.** Take data of the right shape. Its log is the event that opens
the solve; then one event for each exchange of the elimination, in order, with the entry and the
pivot that the exchange found in the matrix at that moment, the entry being the greater one, and
within a step the pivot being the entry of the exchange before; then, if the elimination succeeds
and the verbosity is above zero, one event for each exchange of its record; and an event at the
end if and only if there is a result. The exchanges told are those of the report. If the
elimination is refused an answer, they are those made before that call. The verbosity changes
nothing else. -/
theorem log_tells_run {c : Config} {matrix rhs : Array Scaled} (h : c.Describes matrix rhs) :
    ∃ a, c.assemble matrix rhs = .ok a ∧ c.TellsTruly matrix rhs a := by
  obtain ⟨a, ha⟩ := h.exists_assemble
  have hlog := log_solve ha
  obtain ⟨heliminated, hrefused⟩ := c.swaps_eliminate a
  refine ⟨a, ha, hlog, ?levels, fun m hm => (Stage.lt_of_mem_history hm).2,
    Stage.isChain_history (List.nodup_finRange _) _, heliminated, ?reported, ?refused, ?verbosity⟩
  case levels =>
    rw [hlog, List.map_append, List.map_append, List.map_cons, level_history, level_infos,
      level_closing]
    rfl
  case reported =>
    intro report hreport
    cases hrun : (c.eliminate a).outcome with
    | error cause =>
      rw [solve_of_eliminate_error ha hrun] at hreport
      cases hreport
    | ok S =>
      obtain ⟨outcome, hfinish, hswaps⟩ := c.finish_eq S
      rw [solve_of_eliminate ha hrun, hfinish] at hreport
      rw [hswaps report hreport, heliminated S hrun]
  case refused =>
    intro stopped hstopped
    have hrun : (c.eliminate a).outcome = .error stopped.cause := by
      rw [outcome_eliminate, hstopped]
      rfl
    rw [solve_of_eliminate_error ha hrun]
    exact ⟨rfl, hrefused stopped hstopped⟩
  case verbosity =>
    intro v
    have houtcome := c.outcome_solve_verbosity matrix rhs v
    refine ⟨houtcome, ?_⟩
    have hinfo : ∀ (c : Config) (outcome : Except Error (Stage c.dimension)),
        (c.infos outcome).filter (·.level ≠ Level.info) = [] := by
      intro c outcome
      refine List.filter_eq_nil_iff.mpr fun e he => ?_
      have hlevel := List.mem_map_of_mem (f := Event.level) he
      rw [c.level_infos] at hlevel
      simpa using List.eq_of_mem_replicate hlevel
    have hlog' : ({ c with verbosity := v }.solve matrix rhs).log = _ := log_solve ha
    rw [hlog, hlog', houtcome, List.filter_append, List.filter_append, List.filter_append,
      List.filter_append, hinfo, hinfo]
    rfl

/-- Three unknowns in plain integers, reporting exchanges. -/
def tellingConfig : Config := { Config.ofDimension 3 with format := .integer, verbosity := 1 }

/-- The first column rises, so that its scan makes two exchanges; in the second one a zero comes
up from below and is divided by. -/
def risingMatrix : Array Scaled := #[⟨1⟩, ⟨-1⟩, ⟨4⟩, ⟨2⟩, ⟨0⟩, ⟨5⟩, ⟨3⟩, ⟨7⟩, ⟨6⟩]

/-- The exchange that precedes the failure is told, and none is told once more. -/
theorem log_tells_run_cut :
    tellingConfig.Describes risingMatrix #[⟨1⟩, ⟨2⟩, ⟨3⟩] ∧
    (tellingConfig.solve risingMatrix #[⟨1⟩, ⟨2⟩, ⟨3⟩]).log =
      [.solving 3 0, .exceeds 0 1 ⟨2⟩ ⟨1⟩, .exceeds 0 2 ⟨3⟩ ⟨2⟩, .exceeds 1 2 ⟨0⟩ ⟨-1⟩] ∧
    ∃ a, tellingConfig.TellsTruly risingMatrix #[⟨1⟩, ⟨2⟩, ⟨3⟩] a ∧
      (a.history tellingConfig.format.arithmetic).map Moment.swap = [⟨0, 1⟩, ⟨0, 2⟩, ⟨1, 2⟩] ∧
      (tellingConfig.solve risingMatrix #[⟨1⟩, ⟨2⟩, ⟨3⟩]).log =
        tellingConfig.opening :: (a.history tellingConfig.format.arithmetic).map Moment.event := by
  have hdescribes : tellingConfig.Describes risingMatrix #[⟨1⟩, ⟨2⟩, ⟨3⟩] :=
    ⟨by decide, rfl, by decide, rfl⟩
  have hlog : (tellingConfig.solve risingMatrix #[⟨1⟩, ⟨2⟩, ⟨3⟩]).log =
      [.solving 3 0, .exceeds 0 1 ⟨2⟩ ⟨1⟩, .exceeds 0 2 ⟨3⟩ ⟨2⟩, .exceeds 1 2 ⟨0⟩ ⟨-1⟩] := by
    decide +kernel
  obtain ⟨a, ha, htells⟩ := log_tells_run hdescribes
  obtain rfl : a = .join #v[#v[⟨1⟩, ⟨-1⟩, ⟨4⟩], #v[⟨2⟩, ⟨0⟩, ⟨5⟩], #v[⟨3⟩, ⟨7⟩, ⟨6⟩]]
      #v[⟨1⟩, ⟨2⟩, ⟨3⟩] := Except.ok.inj (ha.symm.trans (by rfl))
  refine ⟨hdescribes, hlog, _, htells, ?_, ?_⟩
  · decide +kernel
  · rw [hlog]
    decide +kernel

end Config

end ScaledGauss

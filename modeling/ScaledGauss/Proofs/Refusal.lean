import ScaledGauss.Plan

/-!
# A run that is refused one call

An arithmetic that refuses call number `t` (`ScaledGauss.Arithmetic.refusing`) answers every
other call as before, and a plan learns of its arithmetic through the answers alone. So a run
against it cannot be told from the ordinary run until call `t` is made, and if that call is
never made it is the ordinary run.

To say this together with what is held on the way, a run is **observed**
(`ScaledGauss.Plan.observe`): with every call it notes the state held there. The recorded
runs and the states held are read off an observation
(`ScaledGauss.Plan.run_eq_observe`, `ScaledGauss.Plan.heldAt_eq_observe`).

## Main results

– `ScaledGauss.Plan.observe_refusing`: where call `t` is refused, the run ends, with the
  state that the ordinary run holds there;
– `ScaledGauss.Plan.observe_refusing_of_le`: where there is no call `t`, nothing changes;
– `ScaledGauss.Plan.endsAt`: both, in terms of recorded runs.
-/

namespace ScaledGauss

/-- The same call, refused. -/
def Call.refused (call : Call) : Call := { call with answer := none }

namespace Plan

variable {σ τ α β : Type} {answers : Nat → Op → Scaled → Scaled → Except Error Scaled}

/-! ### Observed runs -/

/-- **An observed run**: an outcome with the calls that led to it, each with the state held
there. -/
structure Observation (σ α : Type) where
  /-- The calls, in order, and what was held at each. -/
  seen : List (σ × Call)
  /-- The result, or where the run ended. -/
  outcome : Except (Stopped σ) α

/-- **A run under observation**, starting at call number `i`. -/
def observe (answers : Nat → Op → Scaled → Scaled → Except Error Scaled) (i : Nat) :
    Plan σ α → Observation σ α
  | .done a => ⟨[], .ok a⟩
  | .stop held cause => ⟨[], .error ⟨cause, held⟩⟩
  | .call held op left right next =>
    match answers i op left right with
    | .ok answer =>
      let rest := (next answer).observe answers (i + 1)
      ⟨(held, ⟨op, left, right, some answer⟩) :: rest.seen, rest.outcome⟩
    | .error cause => ⟨[(held, ⟨op, left, right, none⟩)], .error ⟨cause, held⟩⟩

/-- One observation after another: the second starts from the result of the first, and from
the number of its calls. -/
def Observation.andThen (o : Observation σ α) (f : α → Nat → Observation σ β) :
    Observation σ β :=
  match o.outcome with
  | .ok a => ⟨o.seen ++ (f a o.seen.length).seen, (f a o.seen.length).outcome⟩
  | .error stopped => ⟨o.seen, .error stopped⟩

/-- **Plans in sequence** are observed one after the other. -/
theorem observe_bind (p : Plan σ α) (f : α → Plan σ β) (i : Nat) :
    (p >>= f).observe answers i =
      (p.observe answers i).andThen fun a j => (f a).observe answers (i + j) := by
  change (p.bind f).observe answers i = _
  induction p generalizing i with
  | done a => rfl
  | stop held cause => rfl
  | call held op left right next ih =>
    rw [bind, observe, observe]
    cases answers i op left right with
    | error cause => rfl
    | ok answer =>
      simp only [ih, Observation.andThen]
      cases ((next answer).observe answers (i + 1)).outcome with
      | error stopped => rfl
      | ok a => simp only [List.length_cons, List.cons_append, Nat.add_assoc, Nat.add_comm 1]

/-- **A recorded run** is an observed one, less what was held. -/
theorem run_eq_observe (p : Plan σ α) (i : Nat) :
    p.run answers i =
      ⟨(p.observe answers i).seen.map Prod.snd, (p.observe answers i).outcome⟩ := by
  induction p generalizing i with
  | done a => rfl
  | stop held cause => rfl
  | call held op left right next ih =>
    rw [run, observe]
    cases answers i op left right with
    | error cause => rfl
    | ok answer => simp only [ih, List.map_cons]

/-- **The state held at a call** is the one that was seen there. -/
theorem heldAt_eq_observe (A : Arithmetic) (p : Plan σ α) (i t : Nat) :
    p.heldAt A t = (p.observe (fun _ => A.apply) i).seen[t]?.map Prod.fst := by
  induction p generalizing i t with
  | done a => simp [heldAt, observe]
  | stop held cause => simp [heldAt, observe]
  | call held op left right next ih =>
    rw [observe]
    cases t with
    | zero =>
      rw [heldAt]
      cases A.apply op left right <;> rfl
    | succ t =>
      rw [heldAt]
      cases A.apply op left right with
      | error cause => rfl
      | ok answer => exact ih answer (i + 1) t

/-- Another view of the states changes what a recorded run leaves behind, and nothing else. -/
theorem run_mapHeld (view : σ → τ) (p : Plan σ α) (i : Nat) :
    (p.mapHeld view).run answers i = ⟨(p.run answers i).calls,
      (p.run answers i).outcome.mapError fun stopped => ⟨stopped.cause, view stopped.held⟩⟩ := by
  induction p generalizing i with
  | done a => rfl
  | stop held cause => rfl
  | call held op left right next ih =>
    rw [mapHeld, run, run]
    cases answers i op left right with
    | error cause => rfl
    | ok answer => simp only [ih]

/-! ### One refusal -/

section Refusing

variable {A : Arithmetic} (cause : Error)

/-- Where call `t` of a run that starts at call number `i` is refused, it ends with the
error. -/
theorem observe_refusing_from {p : Plan σ α} {i t : Nat} {held : σ} {call : Call}
    (h : (p.observe (fun _ => A.apply) i).seen[t]? = some (held, call)) :
    p.observe (A.refusing (i + t) cause) i =
      ⟨(p.observe (fun _ => A.apply) i).seen.take t ++ [(held, call.refused)],
        .error ⟨cause, held⟩⟩ := by
  induction p generalizing i t with
  | done a => simp [observe] at h
  | stop held' cause' => simp [observe] at h
  | call held' op left right next ih =>
    cases t with
    | zero =>
      -- whatever the ordinary answer is, this is the call
      obtain ⟨rfl, hop⟩ : held' = held ∧ call.refused = ⟨op, left, right, none⟩ := by
        rw [observe] at h
        cases hA : A.apply op left right <;> simp only [hA] at h <;> cases h <;> exact ⟨rfl, rfl⟩
      rw [observe, Nat.add_zero, Arithmetic.refusing, if_pos rfl, hop]
      rfl
    | succ t =>
      have hne : i ≠ i + (t + 1) := by omega
      rw [observe, Arithmetic.refusing, if_neg hne, observe]
      rw [observe] at h
      cases hA : A.apply op left right with
      | error cause' =>
        rw [hA] at h
        cases h
      | ok answer =>
        rw [hA] at h
        have hrest := ih answer (i := i + 1) (t := t) h
        rw [Nat.add_right_comm, Nat.add_assoc] at hrest
        simp only [hrest, List.take_succ_cons, List.cons_append]

/-- Where a run that starts at call number `i` has no call `t`, nothing changes. -/
theorem observe_refusing_from_of_le {p : Plan σ α} {i t : Nat}
    (h : (p.observe (fun _ => A.apply) i).seen.length ≤ t) :
    p.observe (A.refusing (i + t) cause) i = p.observe (fun _ => A.apply) i := by
  induction p generalizing i t with
  | done a => rfl
  | stop held cause => rfl
  | call held op left right next ih =>
    rw [observe] at h
    cases t with
    | zero => cases hA : A.apply op left right <;> simp [hA] at h
    | succ t =>
      have hne : i ≠ i + (t + 1) := by omega
      rw [observe, Arithmetic.refusing, if_neg hne, observe]
      cases hA : A.apply op left right with
      | error cause' => rfl
      | ok answer =>
        rw [hA] at h
        have hrest := ih answer (i := i + 1) (t := t) (Nat.le_of_succ_le_succ h)
        rw [Nat.add_right_comm, Nat.add_assoc] at hrest
        simp only [hrest]

/-- **Where call `t` is refused**, the run ends with the error. It has made the calls that
the ordinary run makes before, and call `t` with the operands that it has there, and what it
leaves behind is what the ordinary run holds at that call. -/
theorem observe_refusing {p : Plan σ α} {t : Nat} {held : σ} {call : Call}
    (h : (p.observe (fun _ => A.apply) 0).seen[t]? = some (held, call)) :
    p.observe (A.refusing t cause) 0 =
      ⟨(p.observe (fun _ => A.apply) 0).seen.take t ++ [(held, call.refused)],
        .error ⟨cause, held⟩⟩ := by
  have hrefused := observe_refusing_from cause h
  rwa [Nat.zero_add] at hrefused

/-- **Where there is no call `t`**, its refusal changes nothing. -/
theorem observe_refusing_of_le {p : Plan σ α} {t : Nat}
    (h : (p.observe (fun _ => A.apply) 0).seen.length ≤ t) :
    p.observe (A.refusing t cause) 0 = p.observe (fun _ => A.apply) 0 := by
  have hsame := observe_refusing_from_of_le cause h
  rwa [Nat.zero_add] at hsame

/-- **The refusal of call `t` ends a plan there**, if it comes to that call, and does nothing
to it otherwise. -/
structure EndsAt (A : Arithmetic) (t : Nat) (cause : Error) (p : Plan σ α) : Prop where
  /-- A run that makes the call returns the error at once, unchanged: the calls before are
  the ordinary ones, the operands of the refused call too, and the state left behind is the
  one that the ordinary run holds at the call. -/
  refused : ∀ call, (p.trace A).calls[t]? = some call → ∃ held, p.heldAt A t = some held ∧
    p.run (A.refusing t cause) 0 =
      ⟨(p.trace A).calls.take t ++ [call.refused], .error ⟨cause, held⟩⟩
  /-- A run that does not make the call is the ordinary run. -/
  unaffected : (p.trace A).calls.length ≤ t → p.run (A.refusing t cause) 0 = p.trace A

/-- Every plan ends at the refusal. -/
theorem endsAt (A : Arithmetic) (t : Nat) (p : Plan σ α) :
    p.EndsAt A t cause := by
  constructor
  · intro call hcall
    rw [trace, run_eq_observe, List.getElem?_map, Option.map_eq_some_iff] at hcall
    obtain ⟨⟨held, call⟩, hseen, rfl⟩ := hcall
    refine ⟨held, ?_, ?_⟩
    · rw [heldAt_eq_observe A p 0, hseen]
      rfl
    · simp only [trace, run_eq_observe, observe_refusing cause hseen, List.map_append,
        List.map_take, List.map_cons, List.map_nil]
  · intro ht
    rw [trace, run_eq_observe, List.length_map] at ht
    rw [trace, run_eq_observe, observe_refusing_of_le cause ht, ← run_eq_observe]

end Refusing

end Plan

end ScaledGauss

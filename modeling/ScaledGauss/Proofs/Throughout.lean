import ScaledGauss.Proofs.Elimination
import ScaledGauss.Proofs.Lockstep
import ScaledGauss.Proofs.Refusal

/-!
# What holds throughout a run

An invariant of a finished run says nothing about a run that fails: what matters there is the
state left behind, and that can be the state of any moment. This file therefore speaks of
**all the states of a run**: those held at its calls, the one it ends in and the one it leaves
behind.

A property of states holds throughout a plan (`ScaledGauss.Plan.Throughout`) if it holds of
every state held and of the result, whatever the answers are. There is one rule for each way to
put a plan together, and for the elimination these come down to its three actions: an exchange,
the entry of a multiplier, and the entry of a difference
(`ScaledGauss.Stage.Writes.throughout_step`).

The states that a run shows from some call on (`ScaledGauss.Plan.Observation.Shows`) are those
of the rest of its plan (`ScaledGauss.Plan.Observation.Shows.of_bind`), so a property that the
rest keeps throughout holds of them all (`ScaledGauss.Plan.Throughout.of_shows`).
-/

namespace ScaledGauss

namespace Plan

variable {σ α β ι : Type} {P : σ → Prop} {Q : α → Prop} {Q' : β → Prop}
  {answers : Nat → Op → Scaled → Scaled → Except Error Scaled}

/-! ### Plans -/

/-- **A property that holds throughout a plan**: of every state held, and another one of the
result, whatever the answers are. -/
def Throughout (P : σ → Prop) (Q : α → Prop) : Plan σ α → Prop
  | .done a => Q a
  | .stop held _ => P held
  | .call held _ _ _ next => P held ∧ ∀ answer, (next answer).Throughout P Q

theorem throughout_pure {a : α} (h : Q a) : Throughout P Q (pure a : Plan σ α) := h

/-- A call holds one state. -/
theorem throughout_consult {held : σ} {op : Op} {left right : Scaled} (h : P held) :
    Throughout P (fun _ => True) (consult held op left right) :=
  ⟨h, fun _ => trivial⟩

theorem Throughout.bind {p : Plan σ α} {f : α → Plan σ β} (hp : p.Throughout P Q)
    (hf : ∀ a, Q a → (f a).Throughout P Q') : (p >>= f).Throughout P Q' := by
  change (p.bind f).Throughout P Q'
  induction p with
  | done a => exact hf a hp
  | stop held cause => exact hp
  | call held op left right next ih => exact ⟨hp.1, fun answer => ih answer (hp.2 answer)⟩

/-- **A sweep keeps throughout** what each of its steps does. -/
theorem Throughout.foldlM {I : β → Prop} {f : β → ι → Plan σ β} {l : List ι}
    (hf : ∀ b, ∀ x ∈ l, I b → (f b x).Throughout P I) {b : β} (hb : I b) :
    (l.foldlM f b).Throughout P I := by
  induction l generalizing b with
  | nil => exact throughout_pure hb
  | cons x l ih =>
    rw [List.foldlM_cons]
    refine (hf b x List.mem_cons_self hb).bind fun c hc => ih ?_ hc
    exact fun b' x' hx' => hf b' x' (List.mem_cons_of_mem x hx')

/-! ### The states of a run -/

/-- **The states that a run shows from a call on**: what is held at that call and at the later
ones, and the state that the run ends in or leaves behind. -/
inductive Observation.Shows (o : Observation σ σ) (count : Nat) : σ → Prop
  /-- The state held at a call. -/
  | held {t : Nat} {s : σ} {call : Call} : count ≤ t → o.seen[t]? = some (s, call) → Shows o count s
  /-- The state at the end. -/
  | finished {s : σ} : o.outcome = .ok s → Shows o count s
  /-- The state left behind. -/
  | failed {stopped : Stopped σ} : o.outcome = .error stopped → Shows o count stopped.held

/-- A call is seen with the state held there. -/
theorem exists_seen_call {held : σ} {op : Op} {left right : Scaled} {next : Scaled → Plan σ α}
    {i : Nat} : ∃ call, ((Plan.call held op left right next).observe answers i).seen[0]? =
      some (held, call) := by
  rw [observe]
  cases answers i op left right with
  | error cause => exact ⟨_, rfl⟩
  | ok answer => exact ⟨_, rfl⟩

/-- What holds throughout a plan holds of the states held at the calls of a run. -/
theorem Throughout.of_mem_seen {p : Plan σ α} (h : p.Throughout P Q) {i : Nat} {s : σ} {call : Call}
    (hs : (s, call) ∈ (p.observe answers i).seen) : P s := by
  induction p generalizing i with
  | done a => cases hs
  | stop held cause => cases hs
  | call held op left right next ih =>
    obtain ⟨hheld, hnext⟩ := h
    rw [observe] at hs
    cases hA : answers i op left right with
    | error cause =>
      rw [hA] at hs
      cases List.mem_singleton.mp hs
      exact hheld
    | ok answer =>
      rw [hA] at hs
      rcases List.mem_cons.mp hs with heq | hs
      · cases heq
        exact hheld
      · exact ih answer (hnext answer) hs

/-- It holds of the state left behind, and the result has its own property. -/
theorem Throughout.of_outcome {p : Plan σ α} (h : p.Throughout P Q) (i : Nat) :
    (∀ a, (p.observe answers i).outcome = .ok a → Q a) ∧
      ∀ stopped, (p.observe answers i).outcome = .error stopped → P stopped.held := by
  induction p generalizing i with
  | done a =>
    constructor
    · rintro b ⟨⟩
      exact h
    · rintro stopped ⟨⟩
  | stop held cause =>
    constructor
    · rintro b ⟨⟩
    · rintro stopped ⟨⟩
      exact h
  | call held op left right next ih =>
    obtain ⟨hheld, hnext⟩ := h
    rw [observe]
    cases hA : answers i op left right with
    | error cause =>
      constructor
      · rintro b ⟨⟩
      · rintro stopped ⟨⟩
        exact hheld
    | ok answer => exact ih answer (hnext answer) (i + 1)

/-- **What holds throughout a plan holds of every state of its runs.** -/
theorem Throughout.of_shows {p : Plan σ σ} (h : p.Throughout P P) {i : Nat} {s : σ}
    (hs : (p.observe answers i).Shows 0 s) : P s := by
  rcases hs with ⟨-, hseen⟩ | hok | herr
  · exact h.of_mem_seen (List.mem_of_getElem? hseen)
  · exact (h.of_outcome i).1 _ hok
  · exact (h.of_outcome i).2 _ herr

/-- **What a run shows after its first part** is what the rest shows. -/
theorem Observation.Shows.of_bind {p : Plan σ α} {f : α → Plan σ σ} {i : Nat} {a : α} {s : σ}
    (h : (p.observe answers i).outcome = .ok a)
    (hs : ((p >>= f).observe answers i).Shows (p.observe answers i).seen.length s) :
    ((f a).observe answers (i + (p.observe answers i).seen.length)).Shows 0 s := by
  rw [observe_bind, andThen, h] at hs
  rcases hs with ⟨ht, hseen⟩ | hok | herr
  · rw [List.getElem?_append_right ht] at hseen
    exact .held (Nat.zero_le _) hseen
  · exact .finished hok
  · exact .failed herr

end Plan

/-! ### The actions of an elimination -/

namespace Stage

open Plan

variable {n : Nat} {i : Fin n} {P : Stage n → Prop} {S : Stage n}

/-- **A property that the writes of step `i` keep**: the entry of a multiplier in column `i`, and
the entry of a difference from column `i` on, both in a row below row `i`. -/
structure Writes (i : Fin n) (P : Stage n → Prop) : Prop where
  /-- The entry of a multiplier. -/
  factor : ∀ (S : Stage n) (k : Fin n) (q : Scaled), i < k → P S →
    P { S with lower := S.lower.setEntry k i q }
  /-- The entry of a difference. -/
  entry : ∀ (S : Stage n) (k : Fin n) (j : Fin (n + 1)) (d : Scaled), i < k → i.castSucc ≤ j →
    P S → P { S with system := S.system.setEntry k j d }

theorem Writes.throughout_reduce (h : Writes i P) (hS : P S) :
    (S.reduce i).Throughout P P := by
  refine Throughout.foldlM (fun T k hk hT => ?_) hS
  have hik := mem_rowsBelow.mp hk
  refine (throughout_consult hT).bind fun q _ => ?_
  refine Throughout.foldlM (fun U j hj hU => ?_) (h.factor T k q hik hT)
  refine (throughout_consult hU).bind fun product _ => ?_
  refine (throughout_consult hU).bind fun difference _ => ?_
  exact throughout_pure (h.entry U k j difference hik (mem_columnsFrom.mp hj) hU)

/-- **What the actions of a step keep, the step keeps throughout.** -/
theorem Writes.throughout_step (h : Writes i P)
    (exchange : ∀ S k, i < k → S.coefficient i i < S.coefficient k i → P S → P (S.exchange i k))
    (hS : P S) : (S.step i).Throughout P P :=
  h.throughout_reduce (scan_induction exchange hS)

end Stage

/-- **An elimination is its first steps, then one more, then the rest.** -/
theorem Augmented.eliminate_eq_bind {n : Nat} (one zero : Scaled) (a : Augmented n) (i : Fin n) :
    a.eliminate one zero = a.eliminateFirst one zero i >>= fun S =>
      S.step i >>= ((List.finRange n).drop (i.val + 1)).foldlM Stage.step := by
  have hsplit : List.finRange n =
      (List.finRange n).take i ++ i :: (List.finRange n).drop (i.val + 1) := by
    have hdrop := List.drop_eq_getElem_cons (l := List.finRange n) (i := i.val) (by simp)
    rw [List.getElem_finRange] at hdrop
    calc List.finRange n = (List.finRange n).take i ++ (List.finRange n).drop i :=
          (List.take_append_drop _ _).symm
      _ = _ := by rw [hdrop]; rfl
  rw [eliminate]
  conv_lhs => rw [hsplit]
  rw [List.foldlM_append, eliminateFirst]
  rfl

end ScaledGauss

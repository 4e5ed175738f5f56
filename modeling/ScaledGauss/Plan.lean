import ScaledGauss.Arithmetic

/-!
# Computations that consult an arithmetic

The solver's procedures are written as **plans**: trees whose nodes name an
operation and two operands and go on according to the answer. A plan does not
contain the answers, so one and the same plan runs over every arithmetic, also over
one that refuses a particular call.

At every call a plan shows the state it *holds* there – what it has built so far.
That state is what a run leaves behind if the call is refused, which makes the
partly finished work of a failed run part of the description rather than an
accident of it.

## Main definitions

– `ScaledGauss.Plan`: plans, a monad;
– `ScaledGauss.Plan.eval`: the outcome over an arithmetic;
– `ScaledGauss.Plan.run`: the outcome and the calls made, where an answer may also
  depend on the number of calls made before it;
– `ScaledGauss.Arithmetic.refusing`: the arithmetic that refuses one call and
  answers the others as before.
-/

namespace ScaledGauss

/-- **A plan** for a result in `α`, holding a state in `σ` at every call. -/
inductive Plan (σ α : Type)
  /-- The result. -/
  | done (result : α)
  /-- A failure that no arithmetic has a part in. -/
  | stop (held : σ) (cause : Error)
  /-- A call, and what to do with its answer. -/
  | call (held : σ) (op : Op) (left right : Scaled) (next : Scaled → Plan σ α)

/-- A run that ended early: why, and the state held at that point. -/
structure Stopped (σ : Type) where
  /-- The error returned. -/
  cause : Error
  /-- The state left behind. -/
  held : σ

/-- A call that was made, with its answer if there was one. -/
structure Call where
  /-- The operation. -/
  op : Op
  /-- The first operand. -/
  left : Scaled
  /-- The second operand. -/
  right : Scaled
  /-- The answer, or nothing if the call was refused. -/
  answer : Option Scaled
deriving DecidableEq

namespace Plan

variable {σ τ α β : Type}

/-! ### Plans in sequence -/

/-- One call, whose answer is the result. -/
def consult (held : σ) (op : Op) (left right : Scaled) : Plan σ Scaled :=
  .call held op left right .done

/-- First `p`, then what `f` makes of its result. -/
def bind : Plan σ α → (α → Plan σ β) → Plan σ β
  | .done a, f => f a
  | .stop held cause, _ => .stop held cause
  | .call held op left right next, f =>
    .call held op left right fun answer => (next answer).bind f

instance : Monad (Plan σ) where
  pure := .done
  bind := .bind

theorem bind_done (p : Plan σ α) : p.bind .done = p := by
  induction p with
  | done a => rfl
  | stop held cause => rfl
  | call held op left right next ih =>
    exact congrArg (Plan.call held op left right) (funext ih)

theorem bind_bind {γ : Type} (p : Plan σ α) (f : α → Plan σ β) (g : β → Plan σ γ) :
    (p.bind f).bind g = p.bind fun a => (f a).bind g := by
  induction p with
  | done a => rfl
  | stop held cause => rfl
  | call held op left right next ih =>
    exact congrArg (Plan.call held op left right) (funext ih)

instance : LawfulMonad (Plan σ) :=
  .mk' _ (fun p => bind_done p) (fun _ _ => rfl) (fun p f g => bind_bind p f g)

/-- The same plan, holding another view of its state. -/
def mapHeld (view : σ → τ) : Plan σ α → Plan τ α
  | .done a => .done a
  | .stop held cause => .stop (view held) cause
  | .call held op left right next =>
    .call (view held) op left right fun answer => (next answer).mapHeld view

/-! ### Running a plan -/

/-- **The outcome of a plan over an arithmetic**: the first refusal ends it. -/
def eval (A : Arithmetic) : Plan σ α → Except (Stopped σ) α
  | .done a => .ok a
  | .stop held cause => .error ⟨cause, held⟩
  | .call held op left right next =>
    match A.apply op left right with
    | .ok answer => (next answer).eval A
    | .error cause => .error ⟨cause, held⟩

/-- An outcome with the calls that led to it, in order. -/
structure Trace (σ α : Type) where
  /-- Every call made, the refused one included. -/
  calls : List Call
  /-- The result, or where the run ended. -/
  outcome : Except (Stopped σ) α

/-- **A recorded run**, starting at call number `i`. The answers may depend on the
number of the call. -/
def run (answers : Nat → Op → Scaled → Scaled → Except Error Scaled) (i : Nat) :
    Plan σ α → Trace σ α
  | .done a => ⟨[], .ok a⟩
  | .stop held cause => ⟨[], .error ⟨cause, held⟩⟩
  | .call held op left right next =>
    match answers i op left right with
    | .ok answer =>
      let rest := (next answer).run answers (i + 1)
      ⟨⟨op, left, right, some answer⟩ :: rest.calls, rest.outcome⟩
    | .error cause => ⟨[⟨op, left, right, none⟩], .error ⟨cause, held⟩⟩

/-- A recorded run over an arithmetic. -/
def trace (A : Arithmetic) (p : Plan σ α) : Trace σ α := p.run (fun _ => A.apply) 0

/-- The state that a run over an arithmetic holds at call number `t`, if it makes
that call. -/
def heldAt (A : Arithmetic) : Nat → Plan σ α → Option σ
  | _, .done _ => none
  | _, .stop _ _ => none
  | 0, .call held _ _ _ _ => some held
  | t + 1, .call _ op left right next =>
    match A.apply op left right with
    | .ok answer => (next answer).heldAt A t
    | .error _ => none

/-- The outcome of a call is its answer. -/
theorem eval_consult (A : Arithmetic) (held : σ) (op : Op) (left right : Scaled) :
    (consult held op left right).eval A =
      (A.apply op left right).mapError fun cause => ⟨cause, held⟩ := by
  simp only [consult, eval]
  cases A.apply op left right <;> rfl

/-- The outcome of two plans in sequence is that of the first, and, unless it ended
early, that of the second on its result. -/
theorem eval_bind (A : Arithmetic) (p : Plan σ α) (f : α → Plan σ β) :
    (p >>= f).eval A = p.eval A >>= fun a => (f a).eval A := by
  induction p with
  | done a => rfl
  | stop held cause => rfl
  | call held op left right next ih =>
    change eval A (.call held op left right fun answer => (next answer).bind f) = _
    simp only [eval]
    split
    · exact ih _
    · rfl

/-- The outcome of a sweep along a list is the sweep of the outcomes. -/
theorem eval_foldlM (A : Arithmetic) (f : β → α → Plan σ β) (l : List α) (b : β) :
    (l.foldlM f b).eval A = l.foldlM (fun b a => (f b a).eval A) b := by
  induction l generalizing b with
  | nil => rfl
  | cons a l ih => simp only [List.foldlM_cons, eval_bind, ih]

/-- Recording the calls does not change the outcome. -/
theorem outcome_run (A : Arithmetic) (i : Nat) (p : Plan σ α) :
    (p.run (fun _ => A.apply) i).outcome = p.eval A := by
  induction p generalizing i with
  | done a => rfl
  | stop held cause => rfl
  | call held op left right next ih =>
    simp only [run, eval]
    split
    · exact ih _ _
    · rfl

end Plan

/-- **The answers of an arithmetic that refuses one call**: call number `t` gets
the error, every other call its ordinary answer. -/
def Arithmetic.refusing (A : Arithmetic) (t : Nat) (cause : Error) :
    Nat → Op → Scaled → Scaled → Except Error Scaled :=
  fun i op left right => if i = t then .error cause else A.apply op left right

end ScaledGauss

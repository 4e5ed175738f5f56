import ScaledGauss.Proofs.Reordering
import ScaledGauss.Proofs.Refusal

/-!
# What an unknown depends on

Back substitution goes from the last row up, and each unknown takes part in the rows above its
own. So there is a direction in which its input matters: an unknown is determined by the rows
from its own down, on the diagonal and to the right of it, and nothing above or to the left can
reach it.

* **Entries below the diagonal are not read at all.** Two systems with the same upper triangle
  and the same right-hand side have the same plan, up to the state it holds
  (`ScaledGauss.Augmented.backSubstitute_congr`), hence the same calls and the same outcome,
  also where a call is refused.
* **Rows above an unknown do not reach it.** An unknown that has been found is the quotient of a
  dividend that only reads its row and the unknowns below it
  (`ScaledGauss.Augmented.dividend_congr`), so two solutions agree from the last unknown up, as
  far as the systems agree (`ScaledGauss.Augmented.AgreesFrom.get_eq_of_found`).
-/

namespace ScaledGauss

open Plan

variable {n : Nat} {A : Arithmetic}

namespace Augmented

/-- **Systems that agree from row `i` down**, on the diagonal and to the right of it, the
right-hand sides included. -/
def AgreesFrom (i : Fin n) (a a' : Augmented n) : Prop :=
  ∀ (k : Fin n) (j : Fin (n + 1)), i ≤ k → k.castSucc ≤ j → a.entry k j = a'.entry k j

/-- Coefficients and right-hand sides that agree make systems that agree. -/
theorem agreesFrom_join {i : Fin n} {u u' : Grid n n} {y y' : Column n}
    (hu : ∀ r c, i ≤ r → r ≤ c → u.entry r c = u'.entry r c)
    (hy : ∀ r, i ≤ r → y.get r = y'.get r) : (join u y).AgreesFrom i (join u' y') := by
  intro k j hik hkj
  rw [join, join, Grid.entry_ofEntries, Grid.entry_ofEntries]
  split
  · exact hu k _ hik hkj
  · exact hy k hik

/-- **Unknowns agree as far as the systems do.** -/
theorem AgreesFrom.get_eq_of_found {σ : Type} {held : σ} {zero : Scaled} {a a' : Augmented n}
    {x x' : Column n} {i : Fin n} (h : a.AgreesFrom i a')
    (hx : ∀ k, Found A.Answers held zero a x k) (hx' : ∀ k, Found A.Answers held zero a' x' k)
    {k : Fin n} (hik : i ≤ k) : x.get k = x'.get k := by
  -- from the last unknown up, as they are found
  induction hbelow : n - k.val using Nat.strong_induction_on generalizing k with
  | _ t ih =>
    subst hbelow
    have hx_below : ∀ j, k < j → x.get j = x'.get j := fun j hj =>
      ih (n - j.val) (by omega) (hik.trans hj.le) rfl
    obtain ⟨d, hd, hquotient⟩ := hx k
    obtain ⟨d', hd', hquotient'⟩ := hx' k
    rw [dividend_congr (fun j hj => h k j hik hj) hx_below] at hd
    obtain rfl : d = d' := hd.unique hd'
    rw [h k k.castSucc hik le_rfl] at hquotient
    exact hquotient.unique hquotient'

end Augmented

/-- The calls of a back substitution do not depend on the state it holds. -/
theorem LinearSystem.calls_backSubstitute (hn : 0 < n) (a : Augmented n) :
    (((ofAugmented a).backSubstitute A.zero).trace A).calls =
      ((a.backSubstitute () A.zero).trace A).calls := by
  rw [backSubstitute_of_augmented (augmented_ofAugmented hn a),
    ← Augmented.mapHeld_backSubstitute (fun _ : Remains => ()) ⟨ofAugmented a, []⟩, trace, trace,
    run_mapHeld]
  rfl

/-- **Back substitution reads the upper triangle, from the bottom up.** Two systems of one
dimension that agree on the diagonal and above it and have the same right-hand side are treated
alike: the same calls are made, with the same operands and answers, and the same is returned,
whether it is a solution or an error. If they agree only in the rows from the `i`-th on, and
both are solved, then the solutions agree from the `i`-th unknown on. -/
theorem Arithmetic.backSubstitute_reads (A : Arithmetic) (u u' : Grid n n) (y y' : Column n) :
    ((∀ r c, r ≤ c → u.entry r c = u'.entry r c) → y = y' →
      A.backSubstitute (.join u y) = A.backSubstitute (.join u' y') ∧
      (((LinearSystem.ofAugmented (.join u y)).backSubstitute A.zero).trace A).calls =
        (((LinearSystem.ofAugmented (.join u' y')).backSubstitute A.zero).trace A).calls) ∧
    ∀ (i : Fin n) (x x' : Column n), (∀ r c, i ≤ r → r ≤ c → u.entry r c = u'.entry r c) →
      (∀ r, i ≤ r → y.get r = y'.get r) →
      A.backSubstitute (.join u y) = .ok x → A.backSubstitute (.join u' y') = .ok x' →
      ∀ k, i ≤ k → x.get k = x'.get k := by
  constructor
  · rintro hu rfl
    have hsame : ∀ (k : Fin n) (j : Fin (n + 1)), k.castSucc ≤ j →
        (Augmented.join u y).entry k j = (Augmented.join u' y).entry k j := fun k j hkj =>
      Augmented.agreesFrom_join (i := k) (fun r c _ hrc => hu r c hrc) (fun _ _ => rfl)
        k j le_rfl hkj
    refine ⟨backSubstitute_congr hsame, ?_⟩
    rcases Nat.eq_zero_or_pos n with rfl | hn
    · rfl
    · rw [LinearSystem.calls_backSubstitute hn, LinearSystem.calls_backSubstitute hn,
        Augmented.backSubstitute_congr hsame]
  · intro i x x' hu hy hx hx' k hik
    have hfound := (backSubstitute_eq_ok_iff i.pos).mp hx
    have hfound' := (backSubstitute_eq_ok_iff i.pos).mp hx'
    exact (Augmented.agreesFrom_join hu hy).get_eq_of_found hfound hfound' hik

/-- A triangle with a given first row and a given diagonal entry in the second, and the same
residue everywhere below its diagonal. -/
def littered (first : Column 3) (second residue : Scaled) : Grid 3 3 :=
  #v[first, #v[residue, second, ⟨9⟩], #v[residue, residue, ⟨4⟩]]

theorem Arithmetic.backSubstitute_reads_littered :
    (∃ x x', lopsidedFormat.arithmetic.backSubstitute
        (.join (littered #v[⟨3⟩, ⟨-5⟩, ⟨7⟩] ⟨2⟩ ⟨0⟩) lopsidedRhs) = .ok x ∧
      lopsidedFormat.arithmetic.backSubstitute
        (.join (littered #v[⟨3⟩, ⟨-5⟩, ⟨7⟩] ⟨2⟩ ⟨2147483647⟩) lopsidedRhs) = .ok x ∧
      lopsidedFormat.arithmetic.backSubstitute
        (.join (littered #v[⟨-8⟩, ⟨6⟩, ⟨1⟩] ⟨2⟩ ⟨0⟩) lopsidedRhs) = .ok x' ∧
      x.get 0 ≠ x'.get 0 ∧ ∀ k, 1 ≤ k → x.get k = x'.get k) ∧
    lopsidedFormat.arithmetic.backSubstitute
      (.join (littered #v[⟨3⟩, ⟨-5⟩, ⟨7⟩] ⟨0⟩ ⟨0⟩) lopsidedRhs) = .error .divisionByZero ∧
    lopsidedFormat.arithmetic.backSubstitute
      (.join (littered #v[⟨3⟩, ⟨-5⟩, ⟨7⟩] ⟨0⟩ ⟨-1⟩) lopsidedRhs) = .error .divisionByZero := by
  have hupper : ∀ (r c : Fin 3), r ≤ c →
      (littered #v[⟨3⟩, ⟨-5⟩, ⟨7⟩] ⟨2⟩ ⟨0⟩).entry r c =
        (littered #v[⟨3⟩, ⟨-5⟩, ⟨7⟩] ⟨2⟩ ⟨2147483647⟩).entry r c := by
    decide +kernel
  have hupper' : ∀ (r c : Fin 3), r ≤ c →
      (littered #v[⟨3⟩, ⟨-5⟩, ⟨7⟩] ⟨0⟩ ⟨0⟩).entry r c =
        (littered #v[⟨3⟩, ⟨-5⟩, ⟨7⟩] ⟨0⟩ ⟨-1⟩).entry r c := by
    decide +kernel
  have hbelow : ∀ (r c : Fin 3), 1 ≤ r → r ≤ c →
      (littered #v[⟨3⟩, ⟨-5⟩, ⟨7⟩] ⟨2⟩ ⟨0⟩).entry r c =
        (littered #v[⟨-8⟩, ⟨6⟩, ⟨1⟩] ⟨2⟩ ⟨0⟩).entry r c := by
    decide +kernel
  have hsolved : (lopsidedFormat.arithmetic.backSubstitute
      (.join (littered #v[⟨3⟩, ⟨-5⟩, ⟨7⟩] ⟨2⟩ ⟨0⟩) lopsidedRhs)).toOption.map
        (·.get 0) = some ⟨-1797⟩ := by
    decide +kernel
  have hsolved' : (lopsidedFormat.arithmetic.backSubstitute
      (.join (littered #v[⟨-8⟩, ⟨6⟩, ⟨1⟩] ⟨2⟩ ⟨0⟩) lopsidedRhs)).toOption.map
        (·.get 0) = some ⟨-1062⟩ := by
    decide +kernel
  have hstuck : lopsidedFormat.arithmetic.backSubstitute
      (.join (littered #v[⟨3⟩, ⟨-5⟩, ⟨7⟩] ⟨0⟩ ⟨0⟩) lopsidedRhs) = .error .divisionByZero := by
    decide +kernel
  have halike := ((backSubstitute_reads lopsidedFormat.arithmetic _ _ lopsidedRhs _).1 hupper rfl).1
  have halike' :=
    ((backSubstitute_reads lopsidedFormat.arithmetic _ _ lopsidedRhs _).1 hupper' rfl).1
  obtain ⟨x, hx, hfirst⟩ := exists_ok_of_view hsolved
  obtain ⟨x', hx', hfirst'⟩ := exists_ok_of_view hsolved'
  refine ⟨⟨x, x', hx, halike ▸ hx, hx', ?_, ?_⟩, hstuck, halike' ▸ hstuck⟩
  · rw [hfirst, hfirst']
    decide
  · exact (backSubstitute_reads lopsidedFormat.arithmetic _ _ _ _).2 1 x x' hbelow
      (fun _ _ => rfl) hx hx'

end ScaledGauss

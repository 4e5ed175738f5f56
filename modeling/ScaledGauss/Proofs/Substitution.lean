import ScaledGauss.Proofs.Yields
import ScaledGauss.BackSubstitution

/-!
# What back substitution finds

Back substitution fills in the unknowns from the last to the first and never returns to
one it has found. So its result can be described without the order of the sweep: every
unknown is the quotient, by the diagonal entry, of the dividend that the *finished*
solution gives its row (`ScaledGauss.Augmented.found_of_yields`), and conversely such
unknowns are the result (`ScaledGauss.Augmented.yields_of_found`). A dividend only reads
its row and the unknowns below it (`ScaledGauss.Augmented.dividend_congr`), which is why it
makes no difference that it was computed before the others were known; and of the system
only the upper triangle is read (`ScaledGauss.Augmented.backSubstitute_congr`).
-/

namespace ScaledGauss

open Plan

namespace Augmented

variable {n : Nat} {σ : Type} {R : Law} {held : σ} {zero : Scaled} {a : Augmented n}
  {x x' : Column n} {i : Fin n}

/-- **A dividend only reads its row**, from the diagonal on, and the unknowns below it. -/
theorem dividend_congr {a' : Augmented n}
    (ha : ∀ j, i.castSucc ≤ j → a.entry i j = a'.entry i j)
    (hx : ∀ j, i < j → x.get j = x'.get j) :
    a.dividend held zero x i = a'.dividend held zero x' i := by
  have hrhs : a.rhs.get i = a'.rhs.get i := by
    rw [get_rhs, get_rhs, ha (Fin.last n) (Fin.le_last _)]
  have hsum : a.weightedSum held zero x i = a'.weightedSum held zero x' i := by
    refine foldlM_congr (fun sum j hj => ?_) zero
    have hij := mem_rowsBelow.mp hj
    rw [hx j hij, ha j.castSucc (Fin.castSucc_le_castSucc_iff.mpr hij.le)]
  rw [dividend, dividend, hrhs, hsum]

/-- **Back substitution only reads the upper triangle** and the right-hand side. -/
theorem backSubstitute_congr {a' : Augmented n}
    (h : ∀ (k : Fin n) (j : Fin (n + 1)), k.castSucc ≤ j → a.entry k j = a'.entry k j) :
    a.backSubstitute held zero = a'.backSubstitute held zero := by
  rw [backSubstitute, backSubstitute]
  refine foldlM_congr (fun x k _ => ?_) _
  rw [substitute, substitute, dividend_congr (h k) fun _ _ => rfl, h k k.castSucc le_rfl]

/-- An unknown that has been found: a quotient of its dividend by its diagonal entry. -/
def Found (R : Law) (held : σ) (zero : Scaled) (a : Augmented n) (x : Column n) (i : Fin n) :
    Prop :=
  ∃ d, Yields R (a.dividend held zero x i) d ∧ R .divide d (a.entry i i.castSucc) (x.get i)

/-- An unknown that has been found stays so while those above it change. -/
theorem Found.congr (h : Found R held zero a x i) (hx : ∀ j, i ≤ j → x.get j = x'.get j) :
    Found R held zero a x' i := by
  obtain ⟨d, hd, hq⟩ := h
  refine ⟨d, ?_, hx i le_rfl ▸ hq⟩
  rw [← dividend_congr (fun _ _ => rfl) fun j hj => hx j hj.le]
  exact hd

/-- A weaker law finds more. -/
theorem Found.mono {Q : Law}
    (hlaw : ∀ op left right answer, R op left right answer → Q op left right answer)
    (h : Found R held zero a x i) : Found Q held zero a x i := by
  obtain ⟨d, hd, hq⟩ := h
  exact ⟨d, hd.mono hlaw, hlaw _ _ _ _ hq⟩

/-- **What back substitution finds**: every unknown is a quotient of the dividend that the
finished solution gives its row. -/
theorem found_of_yields (h : Yields R (a.backSubstitute held zero) x) (i : Fin n) :
    Found R held zero a x i := by
  -- the unknowns still to come are, at any time, those above the ones found
  have key : ∀ l ∉ ([] : List (Fin n)), Found R held zero a x l := by
    refine (h.foldlM_induction (I := fun rest c => rest.Pairwise (· > ·) ∧
      (∀ l ∉ rest, ∀ k ∈ rest, k < l) ∧ ∀ l ∉ rest, Found R held zero a c l) ?_ ?_).2.2
    · rintro k rest c c' ⟨hsort, habove, hfound⟩ hy
      obtain ⟨hk, hsort⟩ := List.pairwise_cons.mp hsort
      simp only [substitute, yields_bind_iff, yields_consult_iff, yields_pure_iff] at hy
      obtain ⟨d, hd, unknown, hq, rfl⟩ := hy
      have hset := fun j => vector_get_set c k j unknown
      refine ⟨hsort, fun l hl m hm => ?_, fun l hl => ?_⟩
      · rcases eq_or_ne l k with rfl | hlk
        · exact hk m hm
        · exact habove l (by simp [hlk, hl]) m (List.mem_cons_of_mem k hm)
      · rcases eq_or_ne l k with rfl | hlk
        · refine ⟨d, ?_, ?_⟩
          · rw [dividend_congr (fun _ _ => rfl) fun j hj => (hset j).trans (if_neg hj.ne)]
            exact hd
          · rw [hset, if_pos rfl]
            exact hq
        · have hlt : k < l := habove l (by simp [hlk, hl]) k List.mem_cons_self
          refine (hfound l (by simp [hlk, hl])).congr fun j hj => ?_
          rw [hset, if_neg (hlt.trans_le hj).ne]
    · refine ⟨?_, by simp, by simp⟩
      rw [List.pairwise_reverse]
      exact List.pairwise_lt_finRange n
  exact key i (by simp)

/-- **What has been found is yielded**: unknowns that are all quotients of their dividends are the
result of a back substitution. -/
theorem yields_of_found (h : ∀ i, Found R held zero a x i) :
    Yields R (a.backSubstitute held zero) x := by
  -- the unknowns still to come make up the list, and all others are those of `x`
  have key : ∀ (rest : List (Fin n)) (c : Column n), rest.Pairwise (· > ·) →
      (∀ l ∉ rest, ∀ k ∈ rest, k < l) → (∀ l ∉ rest, c.get l = x.get l) →
      Yields R (rest.foldlM (a.substitute held zero) c) x := by
    intro rest
    induction rest with
    | nil =>
      intro c _ _ hc
      obtain rfl : c = x := Vector.ext fun l hl => hc ⟨l, hl⟩ List.not_mem_nil
      exact yields_pure_iff.mpr rfl
    | cons k rest ih =>
      intro c hsort habove hc
      obtain ⟨hk, hsort⟩ := List.pairwise_cons.mp hsort
      obtain ⟨d, hd, hq⟩ := h k
      have hlater : ∀ j, k < j → j ∉ k :: rest := by
        rintro j hkj (_ | ⟨_, hj⟩)
        · exact lt_irrefl _ hkj
        · exact lt_asymm hkj (hk j hj)
      have hset := fun j => vector_get_set c k j (x.get k)
      rw [List.foldlM_cons, yields_bind_iff]
      refine ⟨c.set k.val (x.get k) k.isLt, ?_, ih _ hsort (fun l hl m hm => ?_) fun l hl => ?_⟩
      · simp only [substitute, yields_bind_iff, yields_consult_iff, yields_pure_iff]
        rw [dividend_congr (fun _ _ => rfl) fun j hj => hc j (hlater j hj)]
        exact ⟨d, hd, x.get k, hq, rfl⟩
      · rcases eq_or_ne l k with rfl | hlk
        · exact hk m hm
        · exact habove l (by simp [hlk, hl]) m (List.mem_cons_of_mem k hm)
      · rw [hset]
        split
        · next hkl => rw [hkl]
        · next hkl => exact hc l (by simp [Ne.symm hkl, hl])
  refine key _ _ ?_ (by simp) (by simp)
  rw [List.pairwise_reverse]
  exact List.pairwise_lt_finRange n

/-- **What a solve yields**: a finished elimination, and unknowns found in the system that
it left. -/
theorem yields_solve {one : Scaled} {S : Stage n} (h : Yields R (a.solve one zero) (S, x)) :
    Yields R (a.eliminate one zero) S ∧ ∀ i, Found R S zero S.system x i := by
  simp only [solve, yields_bind_iff, yields_pure_iff, Prod.mk.injEq] at h
  obtain ⟨T, hT, y, hy, rfl, rfl⟩ := h
  exact ⟨hT, found_of_yields hy⟩

end Augmented

end ScaledGauss

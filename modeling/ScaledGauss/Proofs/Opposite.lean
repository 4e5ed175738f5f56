import Mathlib.Data.Fintype.EquivFin
import ScaledGauss.Proofs.EntryPoints
import ScaledGauss.Proofs.RightHandSides

/-!
# Opposite right-hand sides

If the right-hand side of a system changes its sign, so does its solution: over the rational
numbers this is plain, and over raw values it is a property of the rounding. Rounding to nearest
treats both signs alike, ties included, because it is done on the magnitude; cutting a product
down does not. What is needed of the answers is collected in `ScaledGauss.Law.Odd`: opposite
operands have opposite answers. The formats that round to nearest and check their range have it
(`ScaledGauss.Format.odd_nearest_checked`).

Two solves with opposite right-hand sides are then compared in two parts.

* **The elimination** has the same multipliers and exchanges both times, since it does not look
  at the right-hand side for them. Both right-hand sides are carried along with them
  (`ScaledGauss.Stage.carry_of_yields`), and what is carried stays opposite
  (`ScaledGauss.Column.Opposite.carry`).
* **The back substitution** divides opposite dividends by one and the same diagonal entry, from
  the last unknown up (`ScaledGauss.Augmented.opposite_of_found`).

The comparison needs both solves to end. One may end alone: the range has a least value whose
opposite is not in it.
-/

namespace ScaledGauss

open Plan

variable {n : Nat}

/-! ### Opposite values -/

namespace Scaled

/-- **Opposite raw values.** -/
def Opposite (a b : Scaled) : Prop := b.val = -a.val

/-- The raw value of the opposite sign; the least one has none, and stays. -/
def neg (a : Scaled) : Scaled := .wrap (-a.val)

theorem opposite_neg {a : Scaled} (h : a ≠ .least) : a.Opposite a.neg := by
  obtain ⟨hlow, hhigh⟩ := a.inRange_val
  have hne : a.val ≠ -0x80000000 := fun hc => h (ext_val hc)
  exact val_wrap_of_inRange ⟨by omega, by omega⟩

theorem opposite_zero {zero : Scaled} (h : zero.val = 0) : zero.Opposite zero := by
  rw [Opposite, h, neg_zero]

end Scaled

/-- **Opposite columns**, entry by entry. -/
def Column.Opposite (c d : Column n) : Prop := ∀ k, (c.get k).Opposite (d.get k)

/-! ### Odd laws -/

/-- **An odd law**: where one factor, the dividend, or both terms are opposite, the answers
are. -/
structure Law.Odd (R : Law) : Prop where
  /-- A product, in its first factor. -/
  multiply_left : ∀ {p p' q r r'}, R .multiply p q r → R .multiply p' q r' →
    p.Opposite p' → r.Opposite r'
  /-- A product, in its second factor. -/
  multiply_right : ∀ {p q q' r r'}, R .multiply p q r → R .multiply p q' r' →
    q.Opposite q' → r.Opposite r'
  /-- A quotient, in its dividend. -/
  divide : ∀ {p p' q r r'}, R .divide p q r → R .divide p' q r' → p.Opposite p' → r.Opposite r'
  /-- A sum, in both terms. -/
  add : ∀ {p p' q q' r r'}, R .add p q r → R .add p' q' r' →
    p.Opposite p' → q.Opposite q' → r.Opposite r'
  /-- A difference, in both terms. -/
  subtract : ∀ {p p' q q' r r'}, R .subtract p q r → R .subtract p' q' r' →
    p.Opposite p' → q.Opposite q' → r.Opposite r'

namespace Rounding

/-- **A product rounded to nearest** changes its sign with the exact one. -/
theorem product_nearest_neg (scale : Nat) (z : Int) :
    nearest.product scale (-z) = -nearest.product scale z := by
  rw [product, product, Int.sign_neg, Int.natAbs_neg, neg_mul]

/-- **A quotient rounded to nearest** changes its sign with the dividend. -/
theorem quotient_nearest_neg (p q : Int) :
    nearest.quotient (-p) q = -nearest.quotient p q := by
  rw [quotient, quotient, Int.sign_neg, Int.natAbs_neg, neg_mul, neg_mul]

end Rounding

/-- **A checked format that rounds to nearest is odd.** -/
theorem Format.odd_nearest_checked {f : Format} (hr : f.rounding = .nearest)
    (ho : f.overflow = .checked) : f.arithmetic.Answers.Odd := by
  -- a checked answer is the exact result, rounded
  have hanswer : ∀ {op a b r}, f.arithmetic.Answers op a b r → r.val = f.exact op a b :=
    fun h => ((apply_checked_eq_ok_iff ho).mp h).2
  constructor
  · intro p p' q r r' h h' hp
    rw [Scaled.Opposite, hanswer h, hanswer h', exact, exact, hr, hp, neg_mul,
      Rounding.product_nearest_neg]
  · intro p q q' r r' h h' hq
    rw [Scaled.Opposite, hanswer h, hanswer h', exact, exact, hr, hq, mul_neg,
      Rounding.product_nearest_neg]
  · intro p p' q r r' h h' hp
    rw [Scaled.Opposite, hanswer h, hanswer h', exact, exact, hr, hp, neg_mul,
      Rounding.quotient_nearest_neg]
  · intro p p' q q' r r' h h' hp hq
    rw [Scaled.Opposite, hanswer h, hanswer h', exact, exact, hp, hq, neg_add]
  · intro p p' q q' r r' h h' hp hq
    rw [Scaled.Opposite, hanswer h, hanswer h', exact, exact, hp, hq, neg_sub_neg, neg_sub]

/-! ### Two sweeps side by side -/

/-- Two sweeps along one list that both end have related results, if each step keeps them
related. -/
theorem foldlM_ok_rel {ε ε' α β ι : Type} {rel : α → β → Prop} {f : α → ι → Except ε α}
    {g : β → ι → Except ε' β} {l : List ι}
    (step : ∀ x ∈ l, ∀ a b a' b', rel a b → f a x = .ok a' → g b x = .ok b' → rel a' b')
    {a a' : α} {b b' : β} (h : rel a b) (hf : l.foldlM f a = .ok a') (hg : l.foldlM g b = .ok b') :
    rel a' b' := by
  induction l generalizing a b with
  | nil =>
    obtain rfl := Except.ok.inj hf
    obtain rfl := Except.ok.inj hg
    exact h
  | cons x l ih =>
    rw [List.foldlM_cons] at hf hg
    obtain ⟨c, hc, hf⟩ := bind_eq_ok_iff.mp hf
    obtain ⟨d, hd, hg⟩ := bind_eq_ok_iff.mp hg
    exact ih (fun y hy => step y (List.mem_cons_of_mem x hy))
      (step x List.mem_cons_self a b c d h hc hd) hf hg

/-! ### The elimination -/

namespace Column.Opposite

variable {A : Arithmetic} {c c' d d' : Column n} {lower : Grid n n} {swaps : List Swap}

theorem set (h : c.Opposite d) {p q : Scaled} (hpq : p.Opposite q) (k : Fin n) :
    Column.Opposite (c.set k.val p k.isLt) (d.set k.val q k.isLt) := by
  intro l
  rw [vector_get_set, vector_get_set]
  split
  · exact hpq
  · exact h l

/-- Exchanged alike, opposite columns stay opposite. -/
theorem exchanged (h : c.Opposite d) (swaps : List Swap) (step : Nat) :
    (c.exchanged swaps step).Opposite (d.exchanged swaps step) := by
  rw [Column.exchanged, Column.exchanged]
  generalize swaps.filter (·.step = step) = exchanges
  induction exchanges generalizing c d with
  | nil => exact h
  | cons s exchanges ih =>
    rw [List.foldl_cons, List.foldl_cons]
    refine ih fun k => ?_
    rw [Swap.get_exchange, Swap.get_exchange]
    exact h _

theorem reduceEntry (hA : A.Answers.Odd) (h : c.Opposite d) {i k : Fin n}
    (hc : c.reduceEntry A lower i k = .ok c') (hd : d.reduceEntry A lower i k = .ok d') :
    c'.Opposite d' := by
  obtain ⟨product, hproduct, hc⟩ := bind_eq_ok_iff.mp hc
  obtain ⟨difference, hdifference, hc⟩ := bind_eq_ok_iff.mp hc
  obtain ⟨product', hproduct', hd⟩ := bind_eq_ok_iff.mp hd
  obtain ⟨difference', hdifference', hd⟩ := bind_eq_ok_iff.mp hd
  obtain rfl := Except.ok.inj hc
  obtain rfl := Except.ok.inj hd
  have hproducts := hA.multiply_right hproduct hproduct' (h i)
  exact h.set (hA.subtract hdifference hdifference' (h k) hproducts) k

theorem carryStep (hA : A.Answers.Odd) (h : c.Opposite d) {i : Fin n}
    (hc : c.carryStep A lower swaps i = .ok c') (hd : d.carryStep A lower swaps i = .ok d') :
    c'.Opposite d' :=
  foldlM_ok_rel (fun _ _ _ _ _ _ h => h.reduceEntry hA) (h.exchanged swaps i) hc hd

/-- **Carried along with the same multipliers and exchanges**, opposite right-hand sides stay
opposite. -/
theorem carry (hA : A.Answers.Odd) (h : c.Opposite d) (hc : c.carry A lower swaps = .ok c')
    (hd : d.carry A lower swaps = .ok d') : c'.Opposite d' :=
  foldlM_ok_rel (fun _ _ _ _ _ _ h => h.carryStep hA) h hc hd

end Column.Opposite

/-- **Two eliminations of one matrix** with opposite right-hand sides that both end: the
coefficients are the same, and the right-hand sides are opposite. -/
theorem Stage.opposite_of_yields {A : Arithmetic} (hA : A.Answers.Odd) {a a' : Augmented n}
    {one zero : Scaled} {S T : Stage n} (hmatrix : a.matrix = a'.matrix)
    (hrhs : a.rhs.Opposite a'.rhs) (hS : Yields A.Answers (a.eliminate one zero) S)
    (hT : Yields A.Answers (a'.eliminate one zero) T) :
    S.SameFactors T ∧ S.rhs.Opposite T.rhs := by
  have hsame := sameFactors_of_yields hmatrix hS hT
  have hcarry := carry_of_yields hT
  rw [hsame.lower, hsame.swaps] at hcarry
  exact ⟨hsame, hrhs.carry hA (carry_of_yields hS) hcarry⟩

/-! ### The back substitution -/

namespace Augmented

variable {A : Arithmetic} {σ τ : Type} {held : σ} {held' : τ} {zero : Scaled} {a a' : Augmented n}
  {x x' : Column n} {i : Fin n}

/-- A weighted sum of opposite unknowns, with the same coefficients. -/
theorem weightedSum_opposite (hA : A.Answers.Odd) (hzero : zero.val = 0)
    (ha : ∀ j, a'.entry i (Fin.castSucc j) = a.entry i j.castSucc)
    (hx : ∀ j, i < j → (x.get j).Opposite (x'.get j)) {s s' : Scaled}
    (hs : Yields A.Answers (a.weightedSum held zero x i) s)
    (hs' : Yields A.Answers (a'.weightedSum held' zero x' i) s') : s.Opposite s' := by
  rw [← eval_eq_ok_iff, weightedSum, eval_foldlM] at hs hs'
  refine foldlM_ok_rel (fun j hj sum sum' next next' hsum hnext hnext' => ?_)
    (Scaled.opposite_zero hzero) hs hs'
  simp only [eval_eq_ok_iff, yields_bind_iff, yields_consult_iff] at hnext hnext'
  obtain ⟨product, hproduct, hnext⟩ := hnext
  obtain ⟨product', hproduct', hnext'⟩ := hnext'
  rw [ha j] at hproduct'
  have hproducts := hA.multiply_left hproduct hproduct' (hx j (mem_rowsBelow.mp hj))
  exact hA.add hnext hnext' hsum hproducts

/-- The dividends of opposite right-hand sides are opposite, once the unknowns below are. -/
theorem dividend_opposite (hA : A.Answers.Odd) (hzero : zero.val = 0)
    (ha : ∀ j, a'.entry i (Fin.castSucc j) = a.entry i j.castSucc)
    (hrhs : (a.rhs.get i).Opposite (a'.rhs.get i))
    (hx : ∀ j, i < j → (x.get j).Opposite (x'.get j)) {d d' : Scaled}
    (hd : Yields A.Answers (a.dividend held zero x i) d)
    (hd' : Yields A.Answers (a'.dividend held' zero x' i) d') : d.Opposite d' := by
  by_cases hlast : i.val + 1 = n
  · rw [dividend, if_pos hlast, yields_pure_iff] at hd hd'
    rw [hd, hd']
    exact hrhs
  · simp only [dividend, if_neg hlast, yields_bind_iff, yields_consult_iff] at hd hd'
    obtain ⟨s, hs, hd⟩ := hd
    obtain ⟨s', hs', hd'⟩ := hd'
    exact hA.subtract hd hd' hrhs (weightedSum_opposite hA hzero ha hx hs hs')

/-- **The unknowns of opposite right-hand sides are opposite.** -/
theorem opposite_of_found (hA : A.Answers.Odd) (hzero : zero.val = 0)
    (ha : ∀ i j, a'.entry i (Fin.castSucc j) = a.entry i j.castSucc)
    (hrhs : a.rhs.Opposite a'.rhs) (hx : ∀ i, Found A.Answers held zero a x i)
    (hx' : ∀ i, Found A.Answers held' zero a' x' i) : x.Opposite x' := by
  intro k
  -- from the last unknown up, as they are found
  induction k using WellFoundedGT.induction with
  | ind k ih =>
    obtain ⟨d, hd, hquotient⟩ := hx k
    obtain ⟨d', hd', hquotient'⟩ := hx' k
    have hdividends := dividend_opposite hA hzero (ha k) (hrhs k) ih hd hd'
    rw [ha k k] at hquotient'
    exact hA.divide hquotient hquotient' hdividends

end Augmented

/-! ### The solve -/

namespace LinearSystem

variable {s : LinearSystem}

/-- A system with unknowns has the right shape. -/
theorem augmented_of_unknowns {A : Arithmetic} {x : Column s.rows} (h : s.unknowns A = .ok x) :
    ∃ a, s.augmented = .ok a := by
  cases haugmented : s.augmented with
  | ok a => exact ⟨a, rfl⟩
  | error cause =>
    rw [unknowns, solve, afterCheck, haugmented] at h
    cases h

/-- **The unknowns of a system** are found in the state in which its elimination ends. -/
theorem found_of_unknowns {A : Arithmetic} {a : Augmented s.rows} {x : Column s.rows}
    (ha : s.augmented = .ok a) (h : s.unknowns A = .ok x) :
    ∃ S, s.factors A = .ok S ∧ Yields A.Answers (a.eliminate A.one A.zero) S ∧
      ∀ i, Augmented.Found A.Answers S A.zero S.system x i := by
  obtain ⟨S, hresult⟩ := unknowns_eq_ok_iff.mp h
  have hfactors := factors_of_result ha hresult
  rw [result_solve ha, result, mapError_eq_ok_iff, eval_eq_ok_iff] at hresult
  exact ⟨S, hfactors, Augmented.yields_solve hresult⟩

/-- The system with every right-hand side of the opposite sign. -/
def negated (s : LinearSystem) : LinearSystem := { s with rhs := s.rhs.map Scaled.neg }

/-- The sign of the right-hand sides has no part in the shape of a system, nor in its matrix. -/
theorem augmented_negated {a : Augmented s.rows} (h : s.augmented = .ok a)
    (hs : ∀ b ∈ s.rhs, b ≠ .least) :
    ∃ a', s.negated.augmented = .ok a' ∧ a.matrix = a'.matrix ∧ a.rhs.Opposite a'.rhs := by
  obtain ⟨rows, cols, matrix, rhs⟩ := s
  unfold augmented at h
  split_ifs at h with hrows hcols hrhs
  · obtain rfl := Except.ok.inj h
    refine ⟨_, (if_neg hrows).trans ((dif_pos hcols).trans
      (dif_pos (Array.size_map.trans hrhs))), ?_, ?_⟩
    · rw [Augmented.matrix_join, Augmented.matrix_join]
      rfl
    · rw [Augmented.rhs_join, Augmented.rhs_join]
      intro k
      have hget : (⟨rhs.map Scaled.neg, Array.size_map.trans hrhs⟩ : Column rows).get k =
          Scaled.neg ((⟨rhs, hrhs⟩ : Column rows).get k) := by
        simp [vector_get]
      have hmem : (⟨rhs, hrhs⟩ : Column rows).get k ∈ rhs := by
        simp [vector_get]
      exact hget ▸ Scaled.opposite_neg (hs _ hmem)

end LinearSystem

/-- **Opposite right-hand sides have opposite solutions**, in a checked format that rounds to
nearest. Take a system of any shape in which no right-hand side is the least raw value. If it is
solved, and so is the system with the opposite right-hand sides, then each unknown of the one is
the opposite of that of the other, and so are the right-hand sides that the two eliminations
leave. -/
theorem Format.opposite_solved (f : Format) (hr : f.rounding = .nearest)
    (ho : f.overflow = .checked) (s : LinearSystem) (hs : ∀ b ∈ s.rhs, b ≠ .least)
    (x x' : Column s.rows) (hx : s.unknowns f.arithmetic = .ok x)
    (hx' : s.negated.unknowns f.arithmetic = .ok x') :
    (∀ i, (x'.get i).val = -(x.get i).val) ∧
    ∃ S T : Stage s.rows, s.factors f.arithmetic = .ok S ∧
      s.negated.factors f.arithmetic = .ok T ∧
      ∀ i, (T.rhs.get i).val = -(S.rhs.get i).val := by
  have hodd := odd_nearest_checked hr ho
  obtain ⟨a, ha⟩ := LinearSystem.augmented_of_unknowns hx
  obtain ⟨a', ha', hmatrix, hrhs⟩ := LinearSystem.augmented_negated ha hs
  obtain ⟨S, hfactors, hS, hfound⟩ := LinearSystem.found_of_unknowns ha hx
  obtain ⟨T, hfactors', hT, hfound'⟩ := LinearSystem.found_of_unknowns ha' hx'
  obtain ⟨hsame, hopposite⟩ := Stage.opposite_of_yields hodd hmatrix hrhs hS hT
  exact ⟨Augmented.opposite_of_found hodd rfl hsame.coefficient hopposite hfound hfound',
    S, T, hfactors, hfactors', hopposite⟩

/-- Coefficients and right-hand sides whose solve exchanges rows at both of its steps and makes
products and quotients that lie halfway between two raw values, above zero and below. -/
def halfwaySystem : Augmented 3 := .join
  #v[#v[⟨-3⟩, ⟨4⟩, ⟨11⟩], #v[⟨-2⟩, ⟨12⟩, ⟨5⟩], #v[⟨8⟩, ⟨6⟩, ⟨5⟩]] #v[⟨-2⟩, ⟨13⟩, ⟨6⟩]

/-- The format in which it is solved: two fractional bits, checked. -/
def halfwayFormat (rounding : Rounding) : Format where
  fracBits := 2
  rounding := rounding
  overflow := .checked
  fracBits_le := two_le_maxFracBits

theorem Format.opposite_solved_halfway :
    (halfwayFormat .nearest).rounding = .nearest ∧ (halfwayFormat .nearest).overflow = .checked ∧
    (∀ b ∈ (LinearSystem.ofAugmented halfwaySystem).rhs, b ≠ .least) ∧
    ∃ x x' : Column 3,
      (LinearSystem.ofAugmented halfwaySystem).unknowns (halfwayFormat .nearest).arithmetic =
        .ok x ∧
      (LinearSystem.ofAugmented halfwaySystem).negated.unknowns
        (halfwayFormat .nearest).arithmetic = .ok x' ∧
      x.toList = [⟨1⟩, ⟨6⟩, ⟨-3⟩] ∧ (∀ i, (x'.get i).val = -(x.get i).val) ∧
      ∃ S T : Stage 3,
        (LinearSystem.ofAugmented halfwaySystem).factors (halfwayFormat .nearest).arithmetic =
          .ok S ∧
        (LinearSystem.ofAugmented halfwaySystem).negated.factors
          (halfwayFormat .nearest).arithmetic = .ok T ∧
        ∀ i, (T.rhs.get i).val = -(S.rhs.get i).val := by
  have hrange : ∀ b ∈ (LinearSystem.ofAugmented halfwaySystem).rhs, b ≠ .least := by
    decide +kernel
  have hrun : ((LinearSystem.ofAugmented halfwaySystem).unknowns
      (halfwayFormat .nearest).arithmetic).toOption.map Vector.toList =
        some [⟨1⟩, ⟨6⟩, ⟨-3⟩] := by
    decide +kernel
  have hrun' : ((LinearSystem.ofAugmented halfwaySystem).negated.unknowns
      (halfwayFormat .nearest).arithmetic).toOption.map (fun _ => ()) = some () := by
    decide +kernel
  obtain ⟨x, hx, hlist⟩ := exists_ok_of_view hrun
  obtain ⟨x', hx', -⟩ := exists_ok_of_view hrun'
  exact ⟨rfl, rfl, hrange, x, x', hx, hx', hlist,
    opposite_solved (halfwayFormat .nearest) rfl rfl _ hrange x x' hx hx'⟩

/-- Cutting products down is not odd: the same system, truncating. -/
example :
    ((LinearSystem.ofAugmented halfwaySystem).unknowns
        (halfwayFormat .truncate).arithmetic).toOption.map Vector.toList =
      some [⟨1⟩, ⟨4⟩, ⟨-1⟩] ∧
    ((LinearSystem.ofAugmented halfwaySystem).negated.unknowns
        (halfwayFormat .truncate).arithmetic).toOption.map Vector.toList =
      some [⟨0⟩, ⟨-4⟩, ⟨1⟩] := by
  decide +kernel

end ScaledGauss

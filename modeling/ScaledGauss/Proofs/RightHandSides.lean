import ScaledGauss.Proofs.Lockstep
import ScaledGauss.Proofs.Rounding
import ScaledGauss.Proofs.RowOrder

/-!
# One matrix, several right-hand sides

What an elimination does to the matrix it does whatever the right-hand side is: pivots are
looked for among the coefficients, multipliers are quotients of coefficients. So two
eliminations of one matrix that both end have the same triangle, the same multipliers and
the same record of exchanges (`ScaledGauss.Stage.SameFactors`).

The multipliers and the record are then enough to **carry** any other right-hand side along
(`ScaledGauss.Column.carry`): step by step its entries are exchanged as the record says and
reduced with the multipliers. A multiplier stands where its row was when it was used, so the
entries have to be exchanged before each step and not once for all. The invariant
(`ScaledGauss.Stage.Carried`) is stated, as for taking an elimination back, for every table
of multipliers and every record that agree with the present ones on the finished steps.

Whether the elimination ends is another matter, since a product or a difference of the
right-hand side may be refused. Formats that wrap around or clamp refuse neither
(`ScaledGauss.Format.exists_apply`), and for them the matrix alone decides.
-/

namespace ScaledGauss

open Plan

variable {n : Nat}

/-! ### Carrying a right-hand side along -/

namespace Column

/-- Entry `k`, less the multiple of entry `i`. -/
def reduceEntry (A : Arithmetic) (lower : Grid n n) (i : Fin n) (c : Column n) (k : Fin n) :
    Except Error (Column n) := do
  let product ← A.apply .multiply (lower.entry k i) (c.get i)
  let difference ← A.apply .subtract (c.get k) product
  return c.set k.val difference k.isLt

/-- The entries exchanged as on record for one step, in order. -/
def exchanged (swaps : List Swap) (step : Nat) (c : Column n) : Column n :=
  (swaps.filter (·.step = step)).foldl Swap.exchange c

/-- Step `i`: the entries are exchanged, and those below entry `i` reduced. -/
def carryStep (A : Arithmetic) (lower : Grid n n) (swaps : List Swap) (c : Column n)
    (i : Fin n) : Except Error (Column n) :=
  (rowsBelow i).foldlM (reduceEntry A lower i) (c.exchanged swaps i)

/-- **A right-hand side carried along** an elimination of which only the multipliers and the
record are known. At the last row there is nothing to do. -/
def carry (A : Arithmetic) (lower : Grid n n) (swaps : List Swap) (c : Column n) :
    Except Error (Column n) :=
  (List.finRange n).foldlM (carryStep A lower swaps) c

/-- Reducing the entries of a list gives the target, if every difference is the target's. -/
theorem foldlM_reduceEntry {A : Arithmetic} {lower : Grid n n} {i : Fin n} {c target : Column n}
    {rows : List (Fin n)} (hrows : rows.Nodup) (hi : i ∉ rows)
    (h : ∀ k ∈ rows, ∃ product, A.apply .multiply (lower.entry k i) (c.get i) = .ok product ∧
      A.apply .subtract (c.get k) product = .ok (target.get k))
    (hrest : ∀ k ∉ rows, target.get k = c.get k) :
    rows.foldlM (reduceEntry A lower i) c = .ok target := by
  induction rows generalizing c with
  | nil =>
    have hc : c = target := by
      apply Vector.ext
      intro k hk
      exact (hrest ⟨k, hk⟩ List.not_mem_nil).symm
    exact congrArg Except.ok hc
  | cons k rows ih =>
    obtain ⟨hk, hrows⟩ := List.nodup_cons.mp hrows
    obtain ⟨hik, hi⟩ : i ≠ k ∧ i ∉ rows := by simpa using hi
    obtain ⟨product, hp, hd⟩ := h k List.mem_cons_self
    have hstep : reduceEntry A lower i c k = .ok (c.set k.val (target.get k) k.isLt) := by
      rw [reduceEntry, hp, ok_bind, hd]
      rfl
    rw [List.foldlM_cons, hstep, ok_bind]
    refine ih hrows hi (fun l hl => ?_) fun l hl => ?_
    · -- neither entry `l` nor entry `i` was written
      have hkl : k ≠ l := fun hc => hk (hc ▸ hl)
      rw [vector_get_set, vector_get_set, if_neg hik.symm, if_neg hkl]
      exact h l (List.mem_cons_of_mem k hl)
    · rw [vector_get_set]
      split
      · next hkl => rw [hkl]
      · next hkl => exact hrest l (by simp [hl, Ne.symm hkl])

end Column

namespace Stage

variable {A : Arithmetic} {R : Law} {i : Fin n} {S S' T T' : Stage n}

theorem get_rhs (S : Stage n) (k : Fin n) : S.rhs.get k = S.system.entry k (Fin.last n) :=
  Augmented.get_rhs _ k

/-- An exchange moves the entries of the right-hand side. -/
theorem rhs_exchange (S : Stage n) (i k : Fin n) :
    (S.exchange i k).rhs = Swap.exchange S.rhs ⟨i, k⟩ := by
  apply Vector.ext
  intro l hl
  have hlast : ¬Fin.last n < i.castSucc := not_lt.mpr (Fin.le_last _)
  have hget := Swap.get_exchange S.rhs ⟨i, k⟩ ⟨l, hl⟩
  rw [Swap.perm_mk, get_rhs] at hget
  have hget' := get_rhs (S.exchange i k) ⟨l, hl⟩
  rw [entry_exchange, if_neg hlast] at hget'
  exact hget'.trans hget.symm

/-- **The right-hand side can be carried along**, with any multipliers and any record that
agree with the present ones on the finished steps, up to the exchanges of the step at
hand. -/
structure Carried (A : Arithmetic) (c : Column n) (finished : Nat) (S : Stage n) : Prop where
  /-- No exchange is recorded for a step to come. -/
  recorded : S.Recorded finished
  /-- The finished steps and the exchanges since then lead to the present right-hand side. -/
  replay : ∀ (lower : Grid n n) (swaps : List Swap),
    (∀ k i : Fin n, i.val < finished → lower.entry k i = S.lower.entry k i) →
    (∀ t < finished, swaps.filter (·.step = t) = S.swaps.filter (·.step = t)) →
    ∃ d, ((List.finRange n).take finished).foldlM (Column.carryStep A lower swaps) c = .ok d ∧
      d.exchanged S.swaps finished = S.rhs

theorem carried_start (one zero : Scaled) (a : Augmented n) :
    Carried A a.rhs 0 (.start one zero a) :=
  ⟨recorded_start one zero a, fun _ _ _ _ => ⟨a.rhs, rfl, rfl⟩⟩

theorem Carried.exchange {c : Column n} (h : Carried A c i S) {k : Fin n} (hik : i < k) :
    Carried A c i (S.exchange i k) := by
  refine ⟨h.recorded.exchange hik, fun lower swaps hlower hswaps => ?_⟩
  obtain ⟨d, hd, hrhs⟩ := h.replay lower swaps hlower fun t ht =>
    (hswaps t ht).trans (S.filter_swaps_exchange i k ht.ne)
  refine ⟨d, hd, ?_⟩
  rw [rhs_exchange, ← hrhs, Column.exchanged, swaps_exchange, List.filter_append,
    List.foldl_append]
  simp [Column.exchanged]

theorem Carried.reduce {c : Column n} (h : Carried A c i S) {pivot : Scaled}
    (hr : S.Reduced A.Answers i pivot (rowsBelow i) S') : Carried A c (i.val + 1) S' := by
  have hrec : S'.Recorded i := hr.recorded h.recorded
  refine ⟨hrec.mono (Nat.le_succ _), fun lower swaps hlower hswaps => ?_⟩
  obtain ⟨d, hd, hrhs⟩ := h.replay lower swaps
    (fun k j hj => (hlower k j (Nat.lt_succ_of_lt hj)).trans
      (hr.lower_of_ne k fun hc => hj.ne (congrArg Fin.val hc)))
    (fun t ht => by rw [hswaps t (Nat.lt_succ_of_lt ht), hr.swaps])
  -- the exchanges of step `i` are on record, and its reduction is that of the last column
  have hexchanged : d.exchanged swaps i = S.rhs := by
    rw [← hrhs, Column.exchanged, Column.exchanged, hswaps i (Nat.lt_succ_self _), hr.swaps]
  have hstep : Column.carryStep A lower swaps d i = .ok S'.rhs := by
    rw [Column.carryStep, hexchanged]
    refine Column.foldlM_reduceEntry (nodup_rowsBelow i) (by simp) (fun k hk => ?_) fun k hk => ?_
    · rw [hlower k i (Nat.lt_succ_self _), get_rhs, get_rhs, get_rhs]
      exact hr.entry k hk _ (Fin.le_last _)
    · rw [get_rhs, get_rhs]
      exact hr.system_frame k _ fun hc => hk hc.1
  refine ⟨S'.rhs, ?_, ?_⟩
  · rw [take_finRange_succ, List.foldlM_append, hd, ok_bind, List.foldlM_cons, hstep]
    rfl
  · rw [Column.exchanged, hrec.filter_eq_nil (.inl (Nat.lt_succ_self _))]
    rfl

/-- **The right-hand side of an elimination** is the one at the start, carried along with the
multipliers and the record at the end. -/
theorem carry_of_yields {a : Augmented n} {one zero : Scaled}
    (h : Yields A.Answers (a.eliminate one zero) S) :
    a.rhs.carry A S.lower S.swaps = .ok S.rhs := by
  have hinv : Carried A a.rhs n S := h.eliminate_induction
    (fun i T k hik _ hT => hT.exchange hik) (fun i T T' hT hr => hT.reduce hr)
    (carried_start one zero a)
  obtain ⟨d, hd, hrhs⟩ := hinv.replay S.lower S.swaps (fun _ _ _ => rfl) fun _ _ => rfl
  rw [List.take_of_length_le (by simp)] at hd
  rw [Column.exchanged, hinv.recorded.filter_eq_nil (.inr le_rfl)] at hrhs
  exact hd.trans (congrArg Except.ok hrhs)

/-! ### The factors do not depend on the right-hand side -/

/-- **The same factors**: two states that differ in the right-hand side alone. -/
structure SameFactors (S T : Stage n) : Prop where
  /-- The coefficients are the same. -/
  coefficient : ∀ k j, T.coefficient k j = S.coefficient k j
  /-- The multipliers are the same. -/
  lower : T.lower = S.lower
  /-- The records are the same. -/
  swaps : T.swaps = S.swaps

namespace SameFactors

theorem exchange (h : S.SameFactors T) (i k : Fin n) :
    (S.exchange i k).SameFactors (T.exchange i k) := by
  refine ⟨fun l j => ?_, h.lower, ?_⟩
  · have hentry := fun l => h.coefficient l j
    simp only [Stage.coefficient] at hentry
    rw [Stage.coefficient, Stage.coefficient, entry_exchange, entry_exchange, hentry, hentry]
  · rw [swaps_exchange, swaps_exchange, h.swaps]

/-- A scan looks at coefficients only. -/
theorem scan (h : S.SameFactors T) (i : Fin n) : (S.scan i).SameFactors (T.scan i) := by
  rw [Stage.scan, Stage.scan]
  generalize rowsBelow i = rows
  induction rows generalizing S T with
  | nil => exact h
  | cons k rows ih =>
    rw [List.foldl_cons, List.foldl_cons]
    refine ih ?_
    rw [compare, compare, h.coefficient, h.coefficient]
    split
    · exact h.exchange i k
    · exact h

/-- **A reduction keeps the factors the same**, whatever it makes of the right-hand side. -/
theorem reduce (h : S.SameFactors T) (hS : Yields A.Answers (S.reduce i) S')
    (hT : Yields A.Answers (T.reduce i) T') : S'.SameFactors T' := by
  have hS' := reduced_of_yields hS
  have hT' := reduced_of_yields hT
  rw [h.coefficient] at hT'
  refine ⟨fun k j => ?_, ?_, ?_⟩
  · by_cases hkj : k ∈ rowsBelow i ∧ i.castSucc ≤ j.castSucc
    · exact hS'.entry_congr hT' hkj.1 hkj.1 (h.coefficient k i) hkj.2 (h.coefficient i j)
        (h.coefficient k j)
    · have hframe := h.coefficient k j
      rw [Stage.coefficient, Stage.coefficient] at hframe ⊢
      rw [hT'.system_frame k _ hkj, hS'.system_frame k _ hkj, hframe]
  · ext k j
    by_cases hkj : k ∈ rowsBelow i ∧ j = i
    · obtain ⟨hk, rfl⟩ := hkj
      exact congrArg _ (hS'.factor_congr hT' hk hk (h.coefficient k j))
    · rw [hT'.lower_frame k j hkj, hS'.lower_frame k j hkj, h.lower]
  · rw [hT'.swaps, hS'.swaps, h.swaps]

/-- Where no product and no difference is refused, a reduction happens for every right-hand
side if it happens for one. -/
theorem exists_reduce (h : S.SameFactors T)
    (hR : ∀ op, op ≠ .divide → ∀ left right, ∃ r, R op left right r)
    (hS : ∃ S', Yields R (S.reduce i) S') : ∃ T', Yields R (T.reduce i) T' := by
  rw [exists_yields_reduce_iff] at hS ⊢
  intro k hk
  obtain ⟨factor, hf, -⟩ := hS k hk
  rw [← h.coefficient, ← h.coefficient] at hf
  refine ⟨factor, hf, fun j _ => ?_⟩
  obtain ⟨product, hp⟩ := hR .multiply (by decide) factor (T.system.entry i j)
  exact ⟨product, hp, hR .subtract (by decide) _ product⟩

end SameFactors

variable {a a' : Augmented n} {one zero : Scaled}

theorem sameFactors_start (h : a.matrix = a'.matrix) :
    (start one zero a).SameFactors (start one zero a') := by
  refine ⟨fun k j => ?_, rfl, rfl⟩
  have hentry := congrArg (Grid.entry · k j) h
  simpa [Augmented.matrix, coefficient, start] using hentry.symm

/-- **Two eliminations of one matrix** have the same factors, if both end. -/
theorem sameFactors_of_yields (h : a.matrix = a'.matrix)
    (hS : Yields A.Answers (a.eliminate one zero) S)
    (hT : Yields A.Answers (a'.eliminate one zero) T) : S.SameFactors T := by
  rw [← Augmented.eliminateFirst_all (a := a')] at hT
  refine hS.step_induction (I := fun t S => ∀ T,
    Yields A.Answers (a'.eliminateFirst one zero t) T → S.SameFactors T) ?_ ?_ T hT
  · intro T hT
    rw [Augmented.yields_eliminateFirst_zero_iff] at hT
    rw [hT]
    exact sameFactors_start h
  · intro i S S' _ hI hstep T' hT'
    obtain ⟨T, hT, hstep'⟩ := Augmented.yields_eliminateFirst_succ_iff.mp hT'
    exact ((hI T hT).scan i).reduce hstep hstep'

/-- **An elimination ends for every right-hand side** if it ends for one, where no product
and no difference is refused. -/
theorem exists_eliminate_of_matrix (h : a.matrix = a'.matrix)
    (hA : ∀ op, op ≠ .divide → ∀ left right, ∃ r, A.Answers op left right r)
    (hS : Yields A.Answers (a.eliminate one zero) S) :
    ∃ T, Yields A.Answers (a'.eliminate one zero) T := by
  rw [← Augmented.eliminateFirst_all (a := a')]
  suffices hT : ∃ T, Yields A.Answers (a'.eliminateFirst one zero n) T ∧ S.SameFactors T by
    obtain ⟨T, hT, -⟩ := hT
    exact ⟨T, hT⟩
  refine hS.step_induction (I := fun t S => ∃ T,
    Yields A.Answers (a'.eliminateFirst one zero t) T ∧ S.SameFactors T) ?_ ?_
  · exact ⟨_, Augmented.yields_eliminateFirst_zero_iff.mpr rfl, sameFactors_start h⟩
  · rintro i S S' - ⟨T, hT, hsame⟩ hstep
    obtain ⟨T', hT'⟩ := (hsame.scan i).exists_reduce hA ⟨S', hstep⟩
    exact ⟨T', Augmented.yields_eliminateFirst_succ_iff.mpr ⟨T, hT, hT'⟩,
      (hsame.scan i).reduce hstep hT'⟩

end Stage

/-- **A format that does not check** refuses nothing but a quotient. -/
theorem Format.exists_apply {f : Format} (hf : f.overflow ≠ .checked) {op : Op}
    (hop : op ≠ .divide) (left right : Scaled) :
    ∃ r, f.arithmetic.Answers op left right r := by
  have happly := f.apply_eq_narrow op left right
  rw [if_neg fun hc => hop hc.1, narrow] at happly
  cases ho : f.overflow with
  | wrapping =>
    rw [ho] at happly
    exact ⟨_, happly⟩
  | saturating =>
    rw [ho] at happly
    exact ⟨_, happly⟩
  | checked => exact absurd ho hf

/-- **The factors belong to the matrix, and carry every right-hand side.** If a matrix is
eliminated with two right-hand sides, the triangle, the multipliers and the record are the
same, and the second right-hand side is got by carrying it along with the multipliers and the
record of the first elimination. Under a format that wraps around or clamps it is eliminated
with every right-hand side or with none. -/
theorem Arithmetic.eliminate_rhs (A : Arithmetic) (m : Grid n n) (b c : Column n) :
    (∀ S T, A.eliminate (.join m b) = .ok S → A.eliminate (.join m c) = .ok T →
      T.upper = S.upper ∧ T.lower = S.lower ∧ T.swaps = S.swaps ∧
        c.carry A S.lower S.swaps = .ok T.rhs) ∧
    ∀ f : Format, f.overflow ≠ .checked →
      ((∃ S, f.arithmetic.eliminate (.join m b) = .ok S) ↔
        ∃ T, f.arithmetic.eliminate (.join m c) = .ok T) := by
  have hmatrix : ∀ b c : Column n, (Augmented.join m b).matrix = (Augmented.join m c).matrix := by
    intro b c
    rw [Augmented.matrix_join, Augmented.matrix_join]
  constructor
  · intro S T hS hT
    obtain ⟨-, hS⟩ := eliminate_eq_ok_iff.mp hS
    obtain ⟨-, hT⟩ := eliminate_eq_ok_iff.mp hT
    have hsame := Stage.sameFactors_of_yields (hmatrix b c) hS hT
    have hcarry := Stage.carry_of_yields hT
    rw [Augmented.rhs_join, hsame.lower, hsame.swaps] at hcarry
    refine ⟨?_, hsame.lower, hsame.swaps, hcarry⟩
    ext k j
    have := hsame.coefficient k j
    simpa [Stage.upper, Augmented.matrix, Stage.coefficient] using congrArg Scaled.val this
  · intro f hf
    have hdirection : ∀ b c : Column n, (∃ S, f.arithmetic.eliminate (.join m b) = .ok S) →
        ∃ T, f.arithmetic.eliminate (.join m c) = .ok T := by
      rintro b c ⟨S, hS⟩
      obtain ⟨hn, hS⟩ := eliminate_eq_ok_iff.mp hS
      obtain ⟨T, hT⟩ := Stage.exists_eliminate_of_matrix (hmatrix b c)
        (fun op hop => Format.exists_apply hf hop) hS
      exact ⟨T, eliminate_eq_ok_iff.mpr ⟨hn, hT⟩⟩
    exact ⟨hdirection b c, hdirection c b⟩

/-- Coefficients whose elimination exchanges rows twice at its first step and once at its
second, after a multiplier was entered. -/
def twistedMatrix : Grid 3 3 :=
  #v[#v[⟨3⟩, ⟨700⟩, ⟨-35⟩], #v[⟨5⟩, ⟨1700⟩, ⟨2100000000⟩], #v[⟨9⟩, ⟨900⟩, ⟨-20⟩]]

/-- A right-hand side that stays in range. -/
def twistedRhs : Column 3 := #v[⟨80⟩, ⟨-16⟩, ⟨24⟩]

/-- A right-hand side that leaves the range. -/
def twistedRhs' : Column 3 := #v[⟨2147483647⟩, ⟨-2147483648⟩, ⟨2000000000⟩]

/-- The format in which they are eliminated: three fractional bits, to nearest, wrapping. -/
def twistedFormat : Format where
  fracBits := 3
  rounding := .nearest
  overflow := .wrapping

theorem Arithmetic.eliminate_rhs_twisted :
    twistedFormat.overflow ≠ .checked ∧
    ∃ S T, twistedFormat.arithmetic.eliminate (.join twistedMatrix twistedRhs) = .ok S ∧
      twistedFormat.arithmetic.eliminate (.join twistedMatrix twistedRhs') = .ok T ∧
      S.swaps = [⟨0, 1⟩, ⟨0, 2⟩, ⟨1, 2⟩] ∧ S.rhs.toList = [⟨24⟩, ⟨-28⟩, ⟨78⟩] ∧
      T.upper = S.upper ∧ T.lower = S.lower ∧ T.swaps = S.swaps ∧
      twistedRhs'.carry twistedFormat.arithmetic S.lower S.swaps = .ok T.rhs := by
  have hformat : twistedFormat.overflow ≠ .checked := by decide
  have hrun : (twistedFormat.arithmetic.eliminate
      (.join twistedMatrix twistedRhs)).toOption.map (fun S => (S.swaps, S.rhs.toList)) =
        some ([⟨0, 1⟩, ⟨0, 2⟩, ⟨1, 2⟩], [⟨24⟩, ⟨-28⟩, ⟨78⟩]) := by
    decide +kernel
  obtain ⟨S, hS, hview⟩ := exists_ok_of_view hrun
  obtain ⟨hswaps, hrhs⟩ := Prod.mk.inj hview
  obtain ⟨hsame, hends⟩ :=
    eliminate_rhs twistedFormat.arithmetic twistedMatrix twistedRhs twistedRhs'
  obtain ⟨T, hT⟩ := (hends twistedFormat hformat).mp ⟨S, hS⟩
  exact ⟨hformat, S, T, hS, hT, hswaps, hrhs, hsame S T hS hT⟩

end ScaledGauss

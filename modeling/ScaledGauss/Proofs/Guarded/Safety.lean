import ScaledGauss.CommandLine.Run
import ScaledGauss.Proofs.Guarded.Elimination

/-!
# A solve stays on its machine

The guarded solve (`ScaledGauss.Guarded.solve`) checks every index, every size, every shift
and every word. This file shows that it is the solve (`ScaledGauss.Guarded.solve_eq`). A check
that fails would therefore show as a fault in the outcome of a solve, and there is a single one
that can fail: the square of the dimension may not be a size, which happens from `2 ^ 32`
unknowns on.

The words are wide enough because a format has a bounded scale. The bound is part of the type
of formats; what is said here of the functions that make a format from a number given
elsewhere is that they refuse the number rather than change it
(`ScaledGauss.Format.ScaledTo`).

## Main results

– `ScaledGauss.Guarded.backSubstitute_eq`, `ScaledGauss.Guarded.residual_eq`,
  `ScaledGauss.Guarded.solve_eq`: the guarded programs are the programs;
– `ScaledGauss.Guarded.solve_faults_iff`: when a solve leaves its machine, and what it
  returns otherwise.
-/

namespace ScaledGauss

namespace Guarded

open Plan

/-! ### The unknowns -/

section Unknowns

variable {n : Nat} {σ : Type} (f : Format) (held : σ) (a : Augmented n) (x : Column n)

theorem weightedSum_eq (hn : n < pow2 64) (i : Fin n) :
    weightedSum f a.matrix x i = (a.weightedSum held .zero x i).result f.arithmetic := by
  have hsize : Word.size (i.val + 1) = .ok (i.val + 1) := if_pos (by omega)
  rw [weightedSum, hsize, ok_bind, span_succ, Augmented.weightedSum, result_foldlM,
    List.foldlM_map]
  refine congrArg (fun g => (rowsBelow i).foldlM g _) (funext fun sum => funext fun j => ?_)
  rw [get_val, ok_bind, entry_val, ok_bind, entry_matrix, apply_eq, result_bind, result_consult]
  refine congrArg _ (funext fun product => ?_)
  rw [result_consult]

theorem substitute_eq (hn : n < pow2 64) {i : Fin n} (hi : i.val + 1 ≠ n) :
    substitute f a.matrix a.rhs x i = (a.substitute held .zero x i).result f.arithmetic := by
  rw [substitute, Augmented.substitute, Augmented.dividend, if_neg hi, weightedSum_eq f held a x hn]
  simp only [result_bind, result_consult, get_val, entry_val, ok_bind, entry_matrix, apply_eq,
    set_val, bind_assoc]
  rfl

/-- The last unknown has none after it, and nothing is summed. -/
theorem result_substitute_last {rows : Nat} (a : Augmented (rows + 1)) (x : Column (rows + 1)) :
    (a.substitute held .zero x (Fin.last rows)).result f.arithmetic =
      f.arithmetic.apply .divide (a.rhs.get (Fin.last rows))
        (a.entry (Fin.last rows) (Fin.last rows).castSucc) >>= fun unknown =>
          .ok (x.set (Fin.last rows).val unknown (Fin.last rows).isLt) := by
  have hlast : (Fin.last rows).val + 1 = rows + 1 := rfl
  rw [Augmented.substitute, Augmented.dividend, if_pos hlast, pure_bind, result_bind,
    result_consult]
  rfl

/-- **Back substitution never leaves its tables.** -/
theorem backSubstitute_eq (hpos : 0 < n) (hn : n < pow2 64) :
    backSubstitute f a.matrix a.rhs =
      (a.backSubstitute held f.arithmetic.zero).result f.arithmetic := by
  obtain ⟨rows, rfl⟩ : ∃ rows, n = rows + 1 := ⟨n - 1, by omega⟩
  have hrows : (List.finRange (rows + 1)).reverse =
      Fin.last rows :: ((List.finRange rows).reverse.map Fin.castSucc) := by
    rw [List.finRange_succ_last, List.reverse_append, List.map_reverse]
    rfl
  have hspan : (span 0 rows).reverse =
      ((List.finRange rows).reverse.map Fin.castSucc).map Fin.val := by
    rw [span_zero, List.map_map, ← List.map_reverse]
    rfl
  have hget : get a.rhs rows = .ok (a.rhs.get (Fin.last rows)) := get_val a.rhs (Fin.last rows)
  have hentry : entry a.matrix rows rows =
      .ok (a.entry (Fin.last rows) (Fin.last rows).castSucc) := by
    rw [← entry_matrix]
    exact entry_val a.matrix (Fin.last rows) (Fin.last rows)
  have hset : ∀ (x : Column (rows + 1)) (unknown : Scaled), set x rows unknown =
      .ok (x.set (Fin.last rows).val unknown (Fin.last rows).isLt) :=
    fun x unknown => set_val x (Fin.last rows) unknown
  have hzero : f.arithmetic.zero = .zero := rfl
  rw [backSubstitute, if_neg hpos.ne', less, if_pos hpos.nat_succ_le, ok_bind, Nat.add_sub_cancel,
    hget, ok_bind, hentry, ok_bind, apply_eq, Augmented.backSubstitute, hrows, result_foldlM,
    List.foldlM_cons, hzero, result_substitute_last, bind_assoc]
  refine congrArg _ (funext fun unknown => ?_)
  rw [hset, ok_bind, ok_bind, hspan, List.foldlM_map, List.foldlM_map, List.foldlM_map]
  refine congrArg (fun g => (List.finRange rows).reverse.foldlM g _)
    (funext fun x => funext fun i => ?_)
  exact substitute_eq f held a x hn (by simp; omega)

end Unknowns

/-! ### The residual -/

section Residual

variable {n : Nat} (f : Format) (m : Grid n n) (x b : Column n)

theorem rowSum_eq (i : Fin n) : rowSum m x i = Grid.rowSum i (m.get i).toList x.toList := by
  have hterms : m.rowTerms x i = (i :: rowsBelow i).map fun j => (m.entry i j, x.get j) := rfl
  rw [rowSum, Grid.rowSum, Grid.drop_zip_eq, hterms, span_val, List.foldlM_map, List.foldlM_map]
  refine congrArg (fun g => (i :: rowsBelow i).foldlM g _) (funext fun sum => funext fun j => ?_)
  rw [entry_val, ok_bind, get_val, ok_bind]

theorem rowGap_eq (i : Fin n) :
    rowGap f m x b i = Grid.rowGap f.fracBits i (m.get i).toList x.toList (b.get i) := by
  rw [rowGap, Grid.rowGap, rowSum_eq]
  simp only [get_val, ok_bind]

/-- **The residual never leaves its tables.** -/
theorem residual_eq :
    residual f m x b = m.upperResidual x.toList b.toList f.fracBits := by
  have hrows : (m.toLists.zip b.toList).zipIdx =
      (List.finRange n).map fun i => (((m.get i).toList, b.get i), i.val) := by
    refine List.ext_getElem (by simp [Grid.toLists]) fun i h1 h2 => ?_
    simp [Grid.toLists, vector_get]
  rw [residual, Grid.upperResidual, hrows, span_zero, List.mapM_map, List.mapM_map]
  refine congrArg (fun g => (List.finRange n).mapM g >>= _) (funext fun i => ?_)
  exact rowGap_eq f m x b i

end Residual

/-! ### The solve -/

/-- Data that makes a matrix has rows, and fewer of them than there are sizes. -/
theorem dimension_of_ofFlat {n : Nat} {data : Array Scaled} {m : Grid n n}
    (h : Grid.ofFlat n data = .ok m) : 0 < n ∧ n < pow2 64 := by
  rw [Grid.ofFlat] at h
  split at h
  · cases h
  · next hne =>
    obtain ⟨expected, hsize, -⟩ := bind_eq_ok_iff.mp h
    have hlt : n < pow2 32 := by
      by_contra hge
      rw [Word.size_square, if_neg hge] at hsize
      cases hsize
    exact ⟨Nat.pos_of_ne_zero hne, hlt.trans (by decide)⟩

/-- Once the data is assembled, the guarded program runs as the plan does. -/
theorem report_eq {n : Nat} (f : Format) (hpos : 0 < n) (hn : n < pow2 64) (m : Grid n n)
    (b : Column n) :
    (do
      let M ← eliminate f m b
      let x ← backSubstitute f M.matrix M.rhs
      let residual ← residual f M.matrix x M.rhs
      return (⟨n, M.matrix, M.rhs, M.lower, M.swaps, x, residual⟩ : Report)) =
    ((Augmented.join m b).solve f.arithmetic.one f.arithmetic.zero).result f.arithmetic >>=
      fun r => r.1.report f.fracBits r.2 := by
  rw [eliminate_eq f hpos hn, map_bind, Augmented.solve, result_bind, bind_assoc]
  refine congrArg _ (funext fun S => ?_)
  rw [memory, backSubstitute_eq f S S.system hpos hn, result_bind, bind_assoc]
  refine congrArg _ (funext fun x => ?_)
  rw [residual_eq]
  rfl

/-- **The guarded solve is the solve.** -/
theorem solve_eq (c : Config) (matrix rhs : Array Scaled) :
    solve c matrix rhs = (c.solve matrix rhs).outcome := by
  rw [Config.outcome_solve, Config.assemble, solve]
  cases c.validate with
  | error e => rfl
  | ok u =>
    rw [ok_bind, ok_bind]
    cases hm : Grid.ofFlat c.dimension matrix with
    | error e => rfl
    | ok m =>
      rw [ok_bind, ok_bind]
      cases columnOfFlat c.dimension rhs with
      | error e => rfl
      | ok b =>
        obtain ⟨hpos, hn⟩ := dimension_of_ofFlat hm
        exact report_eq c.format hpos hn m b

end Guarded

/-! ### Scales given elsewhere -/

/-- **A format asked for at a scale**: it has that scale if the scale is supported, and is
refused with that scale otherwise. -/
structure Format.ScaledTo {ε : Type} (refusal : Nat → ε) (fracBits : Nat)
    (made : Except ε Format) : Prop where
  /-- A supported scale is kept. -/
  kept : fracBits ≤ maxFracBits → ∃ f, made = .ok f ∧ f.fracBits = fracBits
  /-- Any other scale is refused. -/
  refused : maxFracBits < fracBits → made = .error (refusal fracBits)

namespace Format

theorem scaledTo_withFracBits (f : Format) (fracBits : Nat) :
    ScaledTo Error.unsupportedScale fracBits (f.withFracBits fracBits) where
  kept h := ⟨_, dif_pos h, rfl⟩
  refused h := dif_neg (Nat.not_le.mpr h)

/-- The scale is overridden first; the policies do not touch it. -/
theorem scaledTo_override (o : CommandLine.Options) (f : Format) :
    ScaledTo Error.unsupportedScale (o.fracBits.getD f.fracBits) (CommandLine.override o f) := by
  have hpolicies : ∀ g : Format, ∃ g', CommandLine.override { o with fracBits := none } g =
      .ok g' ∧ g'.fracBits = g.fracBits := by
    intro g
    rw [CommandLine.override]
    cases o.rounding <;> cases o.overflow <;> exact ⟨_, rfl, rfl⟩
  cases hbits : o.fracBits with
  | none =>
    have hmade : CommandLine.override o f = CommandLine.override { o with fracBits := none } f := by
      rw [← hbits]
    obtain ⟨g, hg, hscale⟩ := hpolicies f
    rw [hmade, hg]
    exact ⟨fun _ => ⟨g, rfl, hscale⟩, fun h => absurd f.fracBits_le (Nat.not_le.mpr h)⟩
  | some fracBits =>
    have hmade : CommandLine.override o f =
        f.withFracBits fracBits >>= CommandLine.override { o with fracBits := none } := by
      simp only [CommandLine.override, hbits]
      rfl
    obtain ⟨hkept, hrefused⟩ := scaledTo_withFracBits f fracBits
    refine ⟨fun h => ?_, fun h => ?_⟩
    · obtain ⟨g, hg, hscale⟩ := hkept h
      obtain ⟨g', hg', hscale'⟩ := hpolicies g
      rw [hmade, hg, ok_bind, hg']
      exact ⟨g', rfl, hscale'.trans hscale⟩
    · rw [hmade, hrefused h]
      rfl

end Format

theorem Stored.PartialFormat.scaledTo_finish (r : PartialFormat) :
    Format.ScaledTo Json.ReadError.unsupportedScale
      (r.fracBits.getD Format.standard.fracBits) r.finish where
  kept h := ⟨_, dif_pos h, rfl⟩
  refused h := dif_neg (Nat.not_le.mpr h)

theorem Stored.scaledTo_format {ts rest : List Json.Token} {r : PartialFormat}
    (h : Json.readRecord formatSlots {} ts = .ok (r, rest)) :
    Format.ScaledTo Json.ReadError.unsupportedScale
      (r.fracBits.getD Format.standard.fracBits) ((Stored.format ts).map Prod.fst) := by
  have hformat : (Stored.format ts).map Prod.fst = r.finish := by
    simp only [Stored.format, h, ok_bind]
    cases r.finish with
    | ok f => rfl
    | error e => rfl
  rw [hformat]
  exact r.scaledTo_finish

/-! ### Leaving the machine -/

/-- **When a solve leaves its machine.** The solve with every access guarded is the solve, and
a guard fails exactly from `2 ^ 32` unknowns on, whatever the data; below, there is a report,
or an error that is reported: no equations, data of the wrong size, a division by zero, or a
result out of range. The format is any that can be made: a scale that is given to a format, as
a number, in a text or among the arguments of a command, is kept if it is supported and refused
otherwise. -/
theorem Guarded.solve_faults_iff :
    (∀ (c : Config) (matrix rhs : Array Scaled),
      solve c matrix rhs = (c.solve matrix rhs).outcome ∧
      ((∃ fault, solve c matrix rhs = .error (.fault fault)) ↔ pow2 32 ≤ c.dimension) ∧
      (c.dimension < pow2 32 →
        (∃ report, solve c matrix rhs = .ok report) ∨
          ∃ e, solve c matrix rhs = .error e ∧ e.OfSolve)) ∧
    (∀ (f : Format) (fracBits : Nat),
      Format.ScaledTo Error.unsupportedScale fracBits (f.withFracBits fracBits)) ∧
    (∀ fracBits, Format.ScaledTo Error.unsupportedScale fracBits (Format.ofFracBits fracBits)) ∧
    (∀ (ts rest : List Json.Token) (r : Stored.PartialFormat),
      Json.readRecord Stored.formatSlots {} ts = .ok (r, rest) →
        Format.ScaledTo Json.ReadError.unsupportedScale
          (r.fracBits.getD Format.standard.fracBits) ((Stored.format ts).map Prod.fst)) ∧
    ∀ (o : CommandLine.Options) (f : Format),
      Format.ScaledTo Error.unsupportedScale (o.fracBits.getD f.fracBits)
        (CommandLine.override o f) := by
  refine ⟨fun c matrix rhs => ?_, Format.scaledTo_withFracBits,
    Format.scaledTo_withFracBits .standard, fun ts rest r h => Stored.scaledTo_format h,
    Format.scaledTo_override⟩
  rw [solve_eq]
  refine ⟨rfl, c.outcome_solve_fault_iff matrix rhs, fun h => ?_⟩
  cases houtcome : (c.solve matrix rhs).outcome with
  | ok report => exact .inl ⟨report, rfl⟩
  | error e => exact .inr ⟨e, rfl, Config.ofSolve_of_outcome_error h houtcome⟩

/-- One unknown too many, one too few and a scale just above the greatest. -/
theorem Guarded.solve_faults_iff_limits :
    (∃ fault, solve ⟨pow2 32, .standard, 0⟩ #[] #[] = .error (.fault fault)) ∧
    (¬ ∃ fault, solve ⟨pow2 32 - 1, .standard, 0⟩ #[] #[] = .error (.fault fault)) ∧
    (∃ e, solve ⟨pow2 32 - 1, .standard, 0⟩ #[] #[] = .error e ∧ e.OfSolve) ∧
    (Stored.format [.opening .curly, .text (some "frac_bits"), .colon,
        .number { digits := 31 }, .closing .curly]).map Prod.fst =
      .error (.unsupportedScale 31) := by
  obtain ⟨hsolve, -, -, hread, -⟩ := solve_faults_iff
  obtain ⟨-, hmany, -⟩ := hsolve ⟨pow2 32, .standard, 0⟩ #[] #[]
  obtain ⟨-, hfew, hreported⟩ := hsolve ⟨pow2 32 - 1, .standard, 0⟩ #[] #[]
  refine ⟨hmany.mpr le_rfl, fun h => absurd (hfew.mp h) (by decide), ?_, ?_⟩
  · have hsize : solve ⟨pow2 32 - 1, .standard, 0⟩ #[] #[] =
        .error (.dimensionMismatch .flattenedMatrix ((pow2 32 - 1) * (pow2 32 - 1)) 0) := rfl
    refine (hreported (by decide)).resolve_left ?_
    rintro ⟨report, hreport⟩
    rw [hsize] at hreport
    cases hreport
  · exact (hread _ [] ⟨some 31, none, none⟩ rfl).refused (by decide)

end ScaledGauss

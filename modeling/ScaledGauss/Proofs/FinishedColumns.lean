import Mathlib.Algebra.Order.Floor.Div
import ScaledGauss.Proofs.Lockstep
import ScaledGauss.Proofs.Rounding

/-!
# What a finished column tells

Every step of an elimination is about one column. The scan brings the largest entry to the
diagonal, each entry below is divided by it, and the multiple of the pivot that the quotient
stands for is taken away. The steps after it do not come back: their exchanges begin further to
the right, their reductions write further to the right, and the row of the pivot is final. So the
column that a finished elimination shows is the one that its own step has left, and whatever can
be said about it is said about one division, one product and one difference
(`ScaledGauss.Stage.finished_of_yields`).

For the arithmetic of a format, two facts follow.

* **What is left below the diagonal is rounding residue.** An exact quotient would leave nothing.
  The rounding of the quotient leaves at most the pivot over the scale, and the rounding of the
  product less than one raw unit more, so the whole is at most the pivot over the scale, rounded
  up (`ScaledGauss.Rounding.residue_le`).
* **The sign of the pivot bounds the multipliers from one side.** The pivot is the largest entry
  as a signed value and not by magnitude, so below a positive pivot no multiplier exceeds one, and
  below a negative pivot none falls short of it. Rounding keeps the order, and so does clamping.
  A pivot of zero is divided by under a clamping format only, and then the quotient is zero or the
  least value there is.

## Main definitions

– `ScaledGauss.Stage.Finished`: what became of an entry below the diagonal.

## Main results

– `ScaledGauss.Stage.finished_of_yields`: the columns of a finished elimination;
– `ScaledGauss.Format.residue_below_diagonal`: the entries left below the diagonal;
– `ScaledGauss.Format.multiplier_sizes`: the multipliers.
-/

namespace ScaledGauss

open Plan

variable {n : Nat}

/-! ### The columns of a run -/

namespace Stage

variable {R : Law} {S S' : Stage n} {i k : Fin n}

/-- **What became of the entry in row `k` and column `i`**, below the diagonal: it was at most the
pivot, its quotient by the pivot is the multiplier on record, and the entry now is its difference
from the product of the two. -/
def Finished (R : Law) (S : Stage n) (i k : Fin n) : Prop :=
  ∃ entry product, entry ≤ S.coefficient i i ∧
    R .divide entry (S.coefficient i i) (S.lower.entry k i) ∧
    R .multiply (S.lower.entry k i) (S.coefficient i i) product ∧
    R .subtract entry product (S.coefficient k i)

/-- The pivot, the multiplier and the entry are all that counts. -/
theorem Finished.congr (h : S.Finished R i k) (hpivot : S'.coefficient i i = S.coefficient i i)
    (hentry : S'.coefficient k i = S.coefficient k i)
    (hlower : S'.lower.entry k i = S.lower.entry k i) : S'.Finished R i k := by
  rw [Finished, hpivot, hentry, hlower]
  exact h

/-- An exchange of a later step leaves the column alone. -/
theorem Finished.exchange {i' k' : Fin n} (h : S.Finished R i k) (hi : i < i') :
    (S.exchange i' k').Finished R i k := by
  have hcolumn : ∀ l, (S.exchange i' k').coefficient l i = S.coefficient l i := fun l =>
    (S.entry_exchange i' k' l i.castSucc).trans (if_pos hi)
  exact h.congr (hcolumn i) (hcolumn k) rfl

/-- So does a reduction of a later step. -/
theorem Finished.reduce {i' : Fin n} {pivot : Scaled} {rows : List (Fin n)}
    (h : S.Finished R i k) (hi : i < i') (hr : S.Reduced R i' pivot rows S') :
    S'.Finished R i k :=
  h.congr (hr.entry_of_lt i hi) (hr.entry_of_lt k hi) (hr.lower_of_ne k hi.ne)

/-- **A step finishes its column.** -/
theorem finished_of_reduced
    (hr : (S.scan i).Reduced R i ((S.scan i).coefficient i i) (rowsBelow i) S') (hik : i < k) :
    S'.Finished R i k := by
  have hk := mem_rowsBelow.mpr hik
  have hpivot : S'.coefficient i i = (S.scan i).coefficient i i := hr.entry_of_le le_rfl _
  obtain ⟨product, hproduct, hdifference⟩ := hr.entry k hk i.castSucc le_rfl
  rw [Finished, hpivot]
  exact ⟨_, product, S.coefficient_scan_le hik.le, hr.factor k hk, hproduct, hdifference⟩

/-- **The columns of a finished elimination**: every entry below the diagonal is as the step of
its column has left it. -/
theorem finished_of_yields {one zero : Scaled} {a : Augmented n}
    (h : Yields R (a.eliminate one zero) S) (hik : i < k) : S.Finished R i k := by
  have key : ∀ l k : Fin n, l.val < n → l < k → S.Finished R l k := by
    refine h.step_induction (I := fun t S => ∀ l k : Fin n, l.val < t → l < k → S.Finished R l k)
      nofun ?_
    intro i S S' _ hS hstep l k hl hlk
    have hr := reduced_of_yields hstep
    rcases (Nat.le_of_lt_succ hl).eq_or_lt with heq | hlt
    · obtain rfl : l = i := Fin.ext heq
      exact finished_of_reduced hr hlk
    · have hscan : (S.scan i).Finished R l k :=
        scan_induction (P := fun T => T.Finished R l k) (fun _ _ _ _ hT => hT.exchange hlt)
          (hS l k hlt hlk)
      exact hscan.reduce hlt hr
  exact key i k i.isLt hik

end Stage

/-! ### What rounding leaves -/

/-- **The residue of a division**: an entry less the product of its quotient with the divisor is
at most the divisor over the scale, rounded up. -/
theorem Rounding.residue_le (r : Rounding) {scale : Nat} (hs : 0 < scale) {q : Int} (hq : q ≠ 0)
    (p : Int) :
    (p - r.product scale (r.quotient (p * scale) q * q)).natAbs ≤ q.natAbs ⌈/⌉ scale := by
  have hquotient := r.quotient_bound hq (p * scale)
  have hproduct := r.product_lt hs (r.quotient (p * scale) q * q)
  have hceil : q.natAbs ≤ scale * (q.natAbs ⌈/⌉ scale) := le_smul_ceilDiv hs
  generalize r.quotient (p * scale) q = factor at *
  generalize r.product scale (factor * q) = product at *
  generalize q.natAbs ⌈/⌉ scale = bound at *
  -- at the scale, the residue is what the quotient leaves and what the product is off by
  have hsplit : scale * (p - product) = (p * scale - q * factor) +
      (factor * q - scale * product) := by ring
  have hscaled : scale * (p - product).natAbs < scale * (bound + 1) :=
    calc scale * (p - product).natAbs = (scale * (p - product)).natAbs := by
          rw [Int.natAbs_mul, Int.natAbs_natCast]
      _ ≤ (p * scale - q * factor).natAbs + (factor * q - scale * product).natAbs := by
          rw [hsplit]
          exact Int.natAbs_add_le _ _
      _ < scale * bound + scale := by omega
      _ = scale * (bound + 1) := (mul_add_one _ _).symm
  exact Nat.le_of_lt_succ (Nat.lt_of_mul_lt_mul_left hscaled)

/-- **What an elimination leaves below the diagonal** in a checked format is rounding residue:
at most the pivot of the column over the scale, rounded up, whatever rows the later steps have
exchanged. -/
theorem Format.residue_below_diagonal (f : Format) (hf : f.overflow = .checked) (m : Grid n n)
    (b : Column n) (S : Stage n) (h : f.arithmetic.eliminate (.join m b) = .ok S) (i k : Fin n)
    (hik : i < k) :
    (S.upper.entry k i).val.natAbs ≤ (S.upper.entry i i).val.natAbs ⌈/⌉ pow2 f.fracBits := by
  obtain ⟨-, hy⟩ := Arithmetic.eliminate_eq_ok_iff.mp h
  obtain ⟨entry, product, -, hd, hm, hs⟩ := Stage.finished_of_yields hy hik
  rw [← Stage.entry_upper] at hd hm hs
  obtain ⟨hzero, hfactor⟩ := (apply_checked_eq_ok_iff hf).mp hd
  have hproduct : product.val = f.rounding.product (pow2 f.fracBits)
      ((S.lower.entry k i).val * (S.upper.entry i i).val) :=
    ((apply_checked_eq_ok_iff hf).mp hm).2
  have hresidue : (S.upper.entry k i).val = entry.val - product.val :=
    ((apply_checked_eq_ok_iff hf).mp hs).2
  rw [hresidue, hproduct, hfactor]
  exact f.rounding.residue_le (pow2_pos _) (fun hpivot => hzero ⟨rfl, hpivot⟩) entry.val

/-- Coefficients whose elimination exchanges rows at both steps and leaves residue in both
columns. -/
def unevenMatrix : Grid 3 3 :=
  #v[#v[⟨3⟩, ⟨-19⟩, ⟨2⟩], #v[⟨6⟩, ⟨-10⟩, ⟨16⟩], #v[⟨7⟩, ⟨1⟩, ⟨0⟩]]

/-- A right-hand side to go with them. -/
def unevenRhs : Column 3 := #v[⟨-6⟩, ⟨0⟩, ⟨-1⟩]

/-- The format in which they are eliminated: two fractional bits, truncating, checked. -/
def unevenFormat : Format where
  fracBits := 2
  rounding := .truncate
  overflow := .checked
  fracBits_le := two_le_maxFracBits

theorem Format.residue_below_diagonal_uneven :
    unevenFormat.overflow = .checked ∧ ∃ S : Stage 3,
      unevenFormat.arithmetic.eliminate (.join unevenMatrix unevenRhs) = .ok S ∧
      S.swaps = [⟨0, 1⟩, ⟨0, 2⟩, ⟨1, 2⟩] ∧
      S.upper = #v[#v[⟨7⟩, ⟨1⟩, ⟨0⟩], #v[⟨2⟩, ⟨-10⟩, ⟨16⟩], #v[⟨1⟩, ⟨-1⟩, ⟨-26⟩]] ∧
      (S.upper.entry 1 0).val.natAbs ≤ (S.upper.entry 0 0).val.natAbs ⌈/⌉ pow2 2 ∧
      (S.upper.entry 2 0).val.natAbs ≤ (S.upper.entry 0 0).val.natAbs ⌈/⌉ pow2 2 ∧
      (S.upper.entry 2 1).val.natAbs ≤ (S.upper.entry 1 1).val.natAbs ⌈/⌉ pow2 2 := by
  have hrun : (unevenFormat.arithmetic.eliminate (.join unevenMatrix unevenRhs)).toOption.map
      (fun S => (S.swaps, S.upper)) = some ([⟨0, 1⟩, ⟨0, 2⟩, ⟨1, 2⟩],
        #v[#v[⟨7⟩, ⟨1⟩, ⟨0⟩], #v[⟨2⟩, ⟨-10⟩, ⟨16⟩], #v[⟨1⟩, ⟨-1⟩, ⟨-26⟩]]) := by
    decide +kernel
  obtain ⟨S, hS, hview⟩ := exists_ok_of_view hrun
  obtain ⟨hswaps, hupper⟩ := Prod.mk.inj hview
  have hresidue := residue_below_diagonal unevenFormat rfl unevenMatrix unevenRhs S hS
  exact ⟨rfl, S, hS, hswaps, hupper, hresidue 0 1 (by decide), hresidue 0 2 (by decide),
    hresidue 1 2 (by decide)⟩

/-! ### The size of the multipliers -/

namespace Rounding

variable {scale : Nat} {p q : Int}

/-- What is at most a positive divisor has a quotient of at most one. -/
theorem quotient_le_scale (r : Rounding) (hq : 0 < q) (h : p ≤ q) :
    r.quotient (p * scale) q ≤ scale := by
  have hscale : p * scale ≤ scale * q := by
    rw [mul_comm (scale : Int) q]
    exact Int.mul_le_mul_of_nonneg_right h (Int.natCast_nonneg scale)
  calc r.quotient (p * scale) q ≤ r.quotient (scale * q) q := r.quotient_mono hq hscale
    _ = scale := r.quotient_mul_right hq.ne' scale

/-- What is at most a negative divisor has a quotient of at least one. -/
theorem scale_le_quotient (r : Rounding) (hq : q < 0) (h : p ≤ q) :
    scale ≤ r.quotient (p * scale) q := by
  have hscale : p * scale ≤ -scale * -q := by
    rw [neg_mul_neg, mul_comm (scale : Int) q]
    exact Int.mul_le_mul_of_nonneg_right h (Int.natCast_nonneg scale)
  have hle : r.quotient (p * scale) (-q) ≤ -scale :=
    calc r.quotient (p * scale) (-q) ≤ r.quotient (-scale * -q) (-q) :=
          r.quotient_mono (neg_pos.mpr hq) hscale
      _ = -scale := r.quotient_mul_right (neg_ne_zero.mpr hq.ne) _
  rw [quotient_neg] at hle
  exact neg_le_neg_iff.mp hle

end Rounding

namespace Scaled

theorem clamp_le {z : Int} {a : Scaled} (h : z ≤ a.val) : clamp z ≤ a := by
  have ha := a.inRange_val
  rw [InRange] at ha
  rw [le_iff_val, val_clamp]
  split_ifs <;> omega

theorem le_clamp {z : Int} {a : Scaled} (h : a.val ≤ z) : a ≤ clamp z := by
  have ha := a.inRange_val
  rw [InRange] at ha
  rw [le_iff_val, val_clamp]
  split_ifs <;> omega

theorem clamp_val (a : Scaled) : clamp a.val = a := by
  have ha := a.inRange_val
  rw [InRange] at ha
  rw [clamp, if_neg (by omega), if_neg (by omega), wrap_val]

end Scaled

namespace Format

variable {f : Format}

/-- One is the scale. -/
theorem val_one (f : Format) : f.one.val = pow2 f.fracBits := by
  have hscale := f.pow2_fracBits_le
  exact Scaled.val_wrap_of_inRange ⟨by omega, by omega⟩

/-- **The answer of a format that does not wrap around** is the rounded result cut to the range:
one that is out of range is cut, or there is no answer. -/
theorem eq_clamp_of_answers (hf : f.overflow ≠ .wrapping) {op : Op} {a b r : Scaled}
    (h0 : ¬(op = .divide ∧ b.val = 0)) (h : f.arithmetic.Answers op a b r) :
    r = .clamp (f.exact op a b) := by
  cases ho : f.overflow with
  | wrapping => exact absurd ho hf
  | saturating =>
    have hnarrow := f.apply_eq_narrow op a b
    rw [if_neg h0, narrow, ho] at hnarrow
    exact Except.ok.inj (h.symm.trans hnarrow)
  | checked => rw [← ((apply_checked_eq_ok_iff ho).mp h).2, Scaled.clamp_val]

/-- **A quotient by zero** of something that is not positive: only a clamping format has one, and
it is zero or the least value. -/
theorem divide_zero_of_answers (hf : f.overflow ≠ .wrapping) {a b r : Scaled} (hb : b.val = 0)
    (ha : a.val ≤ 0) (h : f.arithmetic.Answers .divide a b r) :
    f.overflow = .saturating ∧ (r = .zero ∨ r = .least) := by
  have hzero := f.apply_eq_narrow .divide a b
  rw [if_pos ⟨rfl, hb⟩, h, divideByZero] at hzero
  cases ho : f.overflow with
  | wrapping => exact absurd ho hf
  | checked =>
    rw [ho] at hzero
    cases hzero
  | saturating =>
    rw [ho] at hzero
    have hr := Except.ok.inj hzero
    rw [if_neg (not_lt.mpr ha)] at hr
    split at hr
    · exact ⟨rfl, .inr hr⟩
    · exact ⟨rfl, .inl hr⟩

/-- **The size of the multipliers goes by the sign of the pivot**, in a format that does not wrap
around: below a positive pivot they are at most one, below a negative one at least one. A pivot of
zero with rows below it is met in a clamping format only, and then they are zero or the least
value. -/
theorem multiplier_sizes (f : Format) (hf : f.overflow ≠ .wrapping) (m : Grid n n) (b : Column n)
    (S : Stage n) (h : f.arithmetic.eliminate (.join m b) = .ok S) (i k : Fin n) (hik : i < k) :
    (.zero < S.upper.entry i i → S.lower.entry k i ≤ f.one) ∧
    (S.upper.entry i i < .zero → f.one ≤ S.lower.entry k i) ∧
    (S.upper.entry i i = .zero →
      f.overflow = .saturating ∧ (S.lower.entry k i = .zero ∨ S.lower.entry k i = .least)) := by
  obtain ⟨-, hy⟩ := Arithmetic.eliminate_eq_ok_iff.mp h
  obtain ⟨entry, -, hle, hd, -, -⟩ := Stage.finished_of_yields hy hik
  rw [← Stage.entry_upper] at hle hd
  rw [Scaled.le_iff_val] at hle
  rw [Scaled.lt_iff_val, Scaled.lt_iff_val, Scaled.val_zero]
  refine ⟨fun hpos => ?_, fun hneg => ?_, fun hzero => ?_⟩
  · rw [eq_clamp_of_answers hf (fun hc => hpos.ne' hc.2) hd]
    refine Scaled.clamp_le ?_
    rw [val_one]
    exact f.rounding.quotient_le_scale hpos hle
  · rw [eq_clamp_of_answers hf (fun hc => hneg.ne hc.2) hd]
    refine Scaled.le_clamp ?_
    rw [val_one]
    exact f.rounding.scale_le_quotient hneg hle
  · have hpivot : (S.upper.entry i i).val = 0 := by rw [hzero, Scaled.val_zero]
    exact divide_zero_of_answers hf hpivot (hpivot ▸ hle) hd

/-- Coefficients whose first column has zero as its largest entry. -/
def sunkenMatrix : Grid 3 3 :=
  #v[#v[⟨0⟩, ⟨3⟩, ⟨1⟩], #v[⟨-5⟩, ⟨2⟩, ⟨7⟩], #v[⟨0⟩, ⟨-4⟩, ⟨6⟩]]

/-- A right-hand side to go with them. -/
def sunkenRhs : Column 3 := #v[⟨1⟩, ⟨2⟩, ⟨3⟩]

theorem multiplier_sizes_sunken :
    unevenFormat.overflow ≠ .wrapping ∧
    (∃ S : Stage 3, unevenFormat.arithmetic.eliminate (.join unevenMatrix unevenRhs) = .ok S ∧
      .zero < S.upper.entry 0 0 ∧ S.lower.entry 2 0 ≤ unevenFormat.one ∧
      S.upper.entry 1 1 < .zero ∧ unevenFormat.one ≤ S.lower.entry 2 1) ∧
    (unevenFormat.withOverflow .saturating).overflow ≠ .wrapping ∧
    ∃ S : Stage 3, (unevenFormat.withOverflow .saturating).arithmetic.eliminate
        (.join sunkenMatrix sunkenRhs) = .ok S ∧
      S.upper.entry 0 0 = .zero ∧ S.lower.entry 1 0 = .least ∧ S.lower.entry 2 0 = .zero ∧
      (S.lower.entry 1 0 = .zero ∨ S.lower.entry 1 0 = .least) ∧
      (S.lower.entry 2 0 = .zero ∨ S.lower.entry 2 0 = .least) := by
  refine ⟨by decide, ?_, by decide, ?_⟩
  · have hrun : (unevenFormat.arithmetic.eliminate (.join unevenMatrix unevenRhs)).toOption.map
        (fun S => (S.upper.entry 0 0, S.upper.entry 1 1)) = some (⟨7⟩, ⟨-10⟩) := by
      decide +kernel
    obtain ⟨S, hS, hview⟩ := exists_ok_of_view hrun
    obtain ⟨hfirst, hsecond⟩ := Prod.mk.inj hview
    have hpos : .zero < S.upper.entry 0 0 := by rw [hfirst]; decide
    have hneg : S.upper.entry 1 1 < .zero := by rw [hsecond]; decide
    have hsizes := multiplier_sizes unevenFormat (by decide) unevenMatrix unevenRhs S hS
    exact ⟨S, hS, hpos, (hsizes 0 2 (by decide)).1 hpos, hneg, (hsizes 1 2 (by decide)).2.1 hneg⟩
  · have hrun : ((unevenFormat.withOverflow .saturating).arithmetic.eliminate
        (.join sunkenMatrix sunkenRhs)).toOption.map
          (fun S => (S.upper.entry 0 0, S.lower.entry 1 0, S.lower.entry 2 0)) =
        some (.zero, .least, .zero) := by
      decide +kernel
    obtain ⟨S, hS, hview⟩ := exists_ok_of_view hrun
    obtain ⟨hpivot, hview⟩ := Prod.mk.inj hview
    obtain ⟨hleast, hzero⟩ := Prod.mk.inj hview
    have hsizes := multiplier_sizes (unevenFormat.withOverflow .saturating) (by decide)
      sunkenMatrix sunkenRhs S hS
    exact ⟨S, hS, hpivot, hleast, hzero, ((hsizes 0 1 (by decide)).2.2 hpivot).2,
      ((hsizes 0 2 (by decide)).2.2 hpivot).2⟩

end Format

end ScaledGauss

import Mathlib.Tactic.Linarith
import Mathlib.Tactic.Ring
import ScaledGauss.Format.Arithmetic
import ScaledGauss.Nearest

/-!
# The arithmetic of a format is one rounding of the exact result

A format computes in 64-bit words, in several operations each of which may leave its
word. This file says that none of them ever does, and that what comes out is the
exact result of the operation, rounded once to a whole number of raw units and then
handed to the overflow policy (`ScaledGauss.Format.apply_eq_narrow`). The rounded
result is written down as an integer formula, without words:
`ScaledGauss.Rounding.product` and `ScaledGauss.Rounding.quotient`.

Everything that later files know about the four operations comes from here: the
three overflow policies differ only in `ScaledGauss.Format.narrow`, a rounded
product is off by less than one unit, always downward, or by at most half a unit
(`ScaledGauss.Rounding.product_truncate_bounds`,
`ScaledGauss.Rounding.product_nearest_bound`), and a rounded quotient is off by at most
its divisor once it is multiplied back (`ScaledGauss.Rounding.quotient_bound`).
-/

namespace ScaledGauss

/-! ### Outcomes -/

/-- A computation goes on with the result it has. -/
@[simp] theorem ok_bind {ε α β : Type} (a : α) (f : α → Except ε β) :
    (Except.ok a >>= f) = f a := rfl

/-- An outcome of which some view is known is a result. -/
theorem exists_ok_of_view {ε α β : Type} {outcome : Except ε α} {view : α → β} {b : β}
    (h : outcome.toOption.map view = some b) : ∃ a, outcome = .ok a ∧ view a = b := by
  cases outcome with
  | error e => cases h
  | ok a => exact ⟨a, rfl, Option.some.inj h⟩

/-! ### Sizes -/

theorem Word.fits_of_natAbs_lt {z : Int} (h : z.natAbs < 0x8000000000000000) :
    Word.Fits 64 z := by
  have hp : pow2 (64 - 1) = 0x8000000000000000 := rfl
  constructor <;> omega

theorem Scaled.natAbs_val_le (a : Scaled) : a.val.natAbs ≤ 0x80000000 := by
  have h := a.inRange_val
  simp only [Scaled.InRange] at h
  omega

theorem Scaled.natAbs_val_mul_le (a b : Scaled) :
    (a.val * b.val).natAbs ≤ 0x4000000000000000 := by
  rw [Int.natAbs_mul]
  exact Nat.mul_le_mul a.natAbs_val_le b.natAbs_val_le

/-! The scales that the examples of this library are computed at. -/

theorem two_le_maxFracBits : 2 ≤ maxFracBits := by decide

theorem three_le_maxFracBits : 3 ≤ maxFracBits := by decide

theorem four_le_maxFracBits : 4 ≤ maxFracBits := by decide

theorem Format.pow2_fracBits_le (f : Format) : pow2 f.fracBits ≤ 0x40000000 :=
  Nat.pow_le_pow_right Nat.zero_lt_two f.fracBits_le

theorem Format.natAbs_val_mul_pow2_le (f : Format) (a : Scaled) :
    (a.val * pow2 f.fracBits).natAbs ≤ 0x2000000000000000 := by
  rw [Int.natAbs_mul, Int.natAbs_natCast]
  exact Nat.mul_le_mul a.natAbs_val_le f.pow2_fracBits_le

/-! ### The rounded results -/

namespace Rounding

/-- **A product divided by the scale**, as a whole number of raw units: toward
negative infinity, or to the nearest one with a half going away from zero. -/
def product : Rounding → Nat → Int → Int
  | .truncate, scale, z => z / scale
  | .nearest, scale, z => z.sign * nearestUp z.natAbs scale

/-- **A quotient**, as a whole number of raw units: toward zero, or to the nearest one
with a half going away from zero. -/
def quotient : Rounding → Int → Int → Int
  | .truncate, p, q => p.tdiv q
  | .nearest, p, q => p.sign * q.sign * nearestUp p.natAbs q.natAbs

end Rounding

/-- Twice the distance from a fraction to its nearest whole number is at most the
denominator. -/
theorem nearestUp_bounds {den : Nat} (hd : 0 < den) (num : Nat) :
    2 * den * nearestUp num den ≤ 2 * num + den ∧
      2 * num < 2 * den * nearestUp num den + den := by
  have h1 : 2 * den * nearestUp num den + (2 * num + den) % (2 * den) = 2 * num + den :=
    Nat.div_add_mod _ _
  have h2 : (2 * num + den) % (2 * den) < 2 * den := Nat.mod_lt _ (by omega)
  omega

theorem nearestUp_unique {num den q : Nat} (h1 : 2 * den * q ≤ 2 * num + den)
    (h2 : 2 * num < 2 * den * q + den) : nearestUp num den = q := by
  refine Nat.div_eq_of_lt_le ?_ ?_
  · rw [Nat.mul_comm q]
    exact h1
  · rw [Nat.mul_comm (q + 1), Nat.mul_add]
    omega

/-- A whole number is nearest to itself. -/
theorem nearestUp_mul_left {den : Nat} (hd : 0 < den) (q : Nat) :
    nearestUp (q * den) den = q := by
  refine nearestUp_unique ?_ ?_ <;> nlinarith

/-- The nearest whole number is the quotient, or the next one once twice the remainder
reaches the denominator. -/
theorem nearestUp_eq {den : Nat} (hd : 0 < den) (num : Nat) :
    nearestUp num den = num / den + if den ≤ 2 * (num % den) then 1 else 0 := by
  have h1 : den * (num / den) + num % den = num := Nat.div_add_mod _ _
  have h2 : num % den < den := Nat.mod_lt _ hd
  refine nearestUp_unique ?_ ?_ <;> rw [mul_assoc, mul_add] <;> split <;> omega

theorem nearestUp_le_succ {den : Nat} (hd : 0 < den) (num : Nat) :
    nearestUp num den ≤ num + 1 := by
  have h : 1 * num ≤ den * num := Nat.mul_le_mul_right num hd
  refine Nat.div_le_of_le_mul ?_
  rw [mul_assoc, mul_add]
  omega

namespace Rounding

variable {scale : Nat} {z : Int}

/-- **A truncated product** is below the exact one, by less than one unit. -/
theorem product_truncate_bounds (hs : 0 < scale) (z : Int) :
    scale * truncate.product scale z ≤ z ∧ z - scale * truncate.product scale z ≤ scale - 1 := by
  have h1 := Int.mul_ediv_add_emod z scale
  have h2 := Int.emod_nonneg z (b := scale) (by omega)
  have h3 := Int.emod_lt_of_pos z (b := scale) (by omega)
  simp only [product]
  omega

/-- **A product rounded to nearest** is off by at most half a unit. -/
theorem product_nearest_bound (hs : 0 < scale) (z : Int) :
    2 * (z - scale * nearest.product scale z).natAbs ≤ scale := by
  obtain ⟨h1, h2⟩ := nearestUp_bounds hs z.natAbs
  simp only [product]
  generalize nearestUp z.natAbs scale = q at *
  rw [mul_assoc] at h1 h2
  have hcast : ((scale * q : Nat) : Int) = scale * q := by push_cast; rfl
  rcases lt_trichotomy z 0 with h | rfl | h
  · have hneg : (scale : Int) * (z.sign * q) = -(scale * q) := by
      rw [Int.sign_eq_neg_one_of_neg h]
      ring
    omega
  · simp
  · have hpos : (scale : Int) * (z.sign * q) = scale * q := by
      rw [Int.sign_eq_one_of_pos h, one_mul]
    omega

/-- Whatever the rounding, a product is off by less than one unit. -/
theorem product_lt (r : Rounding) (hs : 0 < scale) (z : Int) :
    (z - scale * r.product scale z).natAbs < scale := by
  cases r with
  | truncate =>
    have := product_truncate_bounds hs z
    omega
  | nearest =>
    have := product_nearest_bound hs z
    omega

theorem product_bound (r : Rounding) (hs : 0 < scale) (z : Int) :
    (z - scale * r.product scale z).natAbs ≤ scale :=
  (r.product_lt hs z).le

/-- An exact product is its own rounding. -/
theorem product_mul_right (r : Rounding) (hs : 0 < scale) (z : Int) :
    r.product scale (z * scale) = z := by
  have hs' : (scale : Int) ≠ 0 := by omega
  cases r with
  | truncate => exact Int.mul_ediv_cancel z hs'
  | nearest =>
    have hsign : (scale : Int).sign = 1 := Int.sign_eq_one_of_pos (by omega)
    rw [product, Int.sign_mul, hsign, Int.natAbs_mul, Int.natAbs_natCast,
      nearestUp_mul_left hs, mul_one, Int.sign_mul_natAbs]

/-- An exact quotient is its own rounding. -/
theorem quotient_mul_right (r : Rounding) {q : Int} (hq : q ≠ 0) (z : Int) :
    r.quotient (z * q) q = z := by
  cases r with
  | truncate => exact Int.mul_tdiv_cancel z hq
  | nearest =>
    have hsign : q.sign * q.sign = 1 := by
      rcases lt_trichotomy q 0 with h | h | h
      · simp [Int.sign_eq_neg_one_of_neg h]
      · exact absurd h hq
      · simp [Int.sign_eq_one_of_pos h]
    rw [quotient, Int.sign_mul, Int.natAbs_mul, nearestUp_mul_left (Int.natAbs_pos.mpr hq),
      mul_assoc z.sign, hsign, mul_one, Int.sign_mul_natAbs]

end Rounding

/-- A number with a sign put to it is no larger. -/
theorem natAbs_sign_mul_le (z w : Int) : (z.sign * w).natAbs ≤ w.natAbs := by
  rcases lt_trichotomy z 0 with h | rfl | h
  · simp [Int.sign_eq_neg_one_of_neg h]
  · simp
  · simp [Int.sign_eq_one_of_pos h]

namespace Rounding

variable {p p' q : Int}

/-- **A quotient rounded to nearest**, multiplied back, is off by at most half the divisor. -/
theorem quotient_nearest_bound (hq : q ≠ 0) (p : Int) :
    2 * (p - q * nearest.quotient p q).natAbs ≤ q.natAbs := by
  have hq' : 0 < q.natAbs := Int.natAbs_pos.mpr hq
  obtain ⟨h1, h2⟩ := nearestUp_bounds hq' p.natAbs
  -- the dividend and the quotient multiplied back have the same sign
  have hdiff : p - q * nearest.quotient p q =
      p.sign * (p.natAbs - q.natAbs * nearestUp p.natAbs q.natAbs) := by
    have hp : p.sign * p.natAbs = p := Int.sign_mul_natAbs p
    have hqs : q.sign * q = q.natAbs := Int.sign_mul_self q
    calc p - q * (p.sign * q.sign * nearestUp p.natAbs q.natAbs)
        = p.sign * p.natAbs - p.sign * (q.sign * q) * nearestUp p.natAbs q.natAbs := by
          rw [hp]
          ring
      _ = p.sign * (p.natAbs - q.natAbs * nearestUp p.natAbs q.natAbs) := by
          rw [hqs]
          ring
  rw [hdiff]
  refine (Nat.mul_le_mul_left 2 (natAbs_sign_mul_le p _)).trans ?_
  generalize nearestUp p.natAbs q.natAbs = m at *
  rw [mul_assoc] at h1 h2
  have hcast : ((q.natAbs * m : Nat) : Int) = q.natAbs * m := Nat.cast_mul _ _
  omega

/-- **A rounded quotient**, multiplied back, is off by at most the divisor. -/
theorem quotient_bound (r : Rounding) (hq : q ≠ 0) (p : Int) :
    (p - q * r.quotient p q).natAbs ≤ q.natAbs := by
  cases r with
  | truncate =>
    have hrem : p - q * p.tdiv q = p.tmod q := by
      have := Int.mul_tdiv_add_tmod p q
      omega
    rw [quotient, hrem, Int.natAbs_tmod]
    exact (Nat.mod_lt _ (Int.natAbs_pos.mpr hq)).le
  | nearest =>
    have := quotient_nearest_bound hq p
    omega

/-- The sign of the divisor is that of the quotient. -/
theorem quotient_neg (r : Rounding) (p q : Int) : r.quotient p (-q) = -r.quotient p q := by
  cases r with
  | truncate => exact Int.tdiv_neg p q
  | nearest =>
    rw [quotient, quotient, Int.sign_neg, Int.natAbs_neg]
    ring

/-- **Rounding keeps the order of quotients** by a positive divisor. To nearest, two quotients
in the wrong order would put the dividends on the wrong sides of the middle between them. -/
theorem quotient_mono (r : Rounding) (hq : 0 < q) (h : p ≤ p') :
    r.quotient p q ≤ r.quotient p' q := by
  cases r with
  | truncate => exact Int.tdiv_le_tdiv hq h
  | nearest =>
    by_contra hlt
    have hp := quotient_nearest_bound hq.ne' p
    have hp' := quotient_nearest_bound hq.ne' p'
    have hstep : q * nearest.quotient p' q + q ≤ q * nearest.quotient p q := by
      rw [← mul_add_one]
      exact Int.mul_le_mul_of_nonneg_left (by omega) hq.le
    obtain rfl : p = p' := by omega
    exact hlt le_rfl

end Rounding

namespace Format

/-! ### Words are wide enough -/

/-- **Rounding a product never leaves its word**, and gives the rounded result. -/
theorem roundProduct_eq (f : Format) {z : Int} (hz : z.natAbs ≤ 0x4000000000000000) :
    f.roundProduct z = .ok (f.rounding.product (pow2 f.fracBits) z) := by
  have hk : f.fracBits ≤ 30 := f.fracBits_le
  have hs := f.pow2_fracBits_le
  have hs' := pow2_pos f.fracBits
  cases hr : f.rounding with
  | truncate => rw [roundProduct, hr, Word.shiftRight, if_pos (by omega)]; rfl
  | nearest =>
    simp only [roundProduct, hr, Rounding.product]
    by_cases h0 : f.fracBits = 0
    · -- there is no half of a unit to add
      have h1 : nearestUp z.natAbs 1 = z.natAbs := by
        simpa using nearestUp_mul_left Nat.one_pos z.natAbs
      rw [if_pos h0, h0, pow2_zero, h1, Int.sign_mul_natAbs]
    · rw [if_neg h0]
      -- half a unit, and the magnitude raised by it
      have hhalf : pow2 f.fracBits = 2 * pow2 (f.fracBits - 1) := by
        rw [← pow2_succ]
        congr
        omega
      have hraised : ((z.natAbs : Int) + pow2 (f.fracBits - 1)) / pow2 f.fracBits =
          nearestUp z.natAbs (pow2 f.fracBits) := by
        have : 2 * z.natAbs + pow2 f.fracBits = 2 * (z.natAbs + pow2 (f.fracBits - 1)) := by omega
        rw [nearestUp, this, Nat.mul_div_mul_left _ _ Nat.two_pos]
        push_cast
        rfl
      -- every word on the way is wide enough
      have hmag := nearestUp_le_succ hs' z.natAbs
      have hsigned := natAbs_sign_mul_le z (nearestUp z.natAbs (pow2 f.fracBits))
      rw [Int.natAbs_natCast] at hsigned
      have f1 : Word.Fits 64 (1 * pow2 (f.fracBits - 1)) := Word.fits_of_natAbs_lt (by omega)
      have f2 : Word.Fits 64 ((z.natAbs : Int) + pow2 (f.fracBits - 1)) :=
        Word.fits_of_natAbs_lt (by omega)
      have f3 : Word.Fits 64 (z.sign * nearestUp z.natAbs (pow2 f.fracBits)) :=
        Word.fits_of_natAbs_lt (by omega)
      rw [one_mul] at f1
      rw [Word.shiftLeft, if_pos (by omega), one_mul, Word.fit_eq_ok f1, ok_bind,
        Word.add, Word.fit_eq_ok f2, ok_bind, Word.shiftRight, if_pos (by omega), hraised,
        ok_bind, Word.mul, Word.fit_eq_ok f3]

/-- The quotient toward zero, moved away from zero where twice the remainder reaches the
divisor, is the nearest one. -/
theorem quotient_nearest_eq {q : Int} (hq : q ≠ 0) (p : Int) :
    Rounding.nearest.quotient p q =
      if (q.natAbs : Int) ≤ 2 * (p.tmod q).natAbs then p.tdiv q + p.sign * q.sign
      else p.tdiv q := by
  have hq' : 0 < q.natAbs := Int.natAbs_pos.mpr hq
  have hdiv : p.tdiv q = p.sign * q.sign * ((p.natAbs / q.natAbs : Nat) : Int) := by
    rw [← Int.sign_mul_natAbs (p.tdiv q), Int.sign_tdiv, Int.natAbs_tdiv]
    split
    · next hlt => rw [Nat.div_eq_of_lt hlt, zero_mul, Nat.cast_zero, mul_zero]
    · rfl
  rw [Rounding.quotient, nearestUp_eq hq', Int.natAbs_tmod, hdiv]
  by_cases h : q.natAbs ≤ 2 * (p.natAbs % q.natAbs)
  · rw [if_pos h, if_pos (by exact_mod_cast h)]
    push_cast
    ring
  · rw [if_neg h, if_neg (by exact_mod_cast h), add_zero]

/-- **Rounding a quotient never leaves its word**, and gives the rounded result. -/
theorem roundQuotient_eq (f : Format) {p : Int} {b : Scaled} (hp : p.natAbs ≤ 0x2000000000000000)
    (hb : b.val ≠ 0) : f.roundQuotient p b.val = .ok (f.rounding.quotient p b.val) := by
  have hquot := Int.natAbs_tdiv_le_natAbs p b.val
  have hquot' : Word.quot 64 p b.val = .ok (p.tdiv b.val) := by
    rw [Word.quot, if_neg hb, Word.fit_eq_ok (Word.fits_of_natAbs_lt (by omega))]
  rw [roundQuotient, hquot', ok_bind]
  cases hr : f.rounding with
  | truncate => rfl
  | nearest =>
    have hbv := b.natAbs_val_le
    have hrem : (p.tmod b.val).natAbs < b.val.natAbs := by
      rw [Int.natAbs_tmod]
      exact Nat.mod_lt _ (Int.natAbs_pos.mpr hb)
    have hrem' : Word.rem 64 p b.val = .ok (p.tmod b.val) := by
      rw [Word.rem, hquot', ok_bind]
      rfl
    have habs : Word.abs 64 (p.tmod b.val) = .ok ((p.tmod b.val).natAbs : Int) :=
      Word.fit_eq_ok (Word.fits_of_natAbs_lt (by omega))
    have hdouble : Word.mul 64 2 ((p.tmod b.val).natAbs : Int) =
        .ok (2 * ((p.tmod b.val).natAbs : Int)) :=
      Word.fit_eq_ok (Word.fits_of_natAbs_lt (by omega))
    have hden : Word.abs 64 b.val = .ok (b.val.natAbs : Int) :=
      Word.fit_eq_ok (Word.fits_of_natAbs_lt (by omega))
    rw [hrem', ok_bind, habs, ok_bind, hdouble, ok_bind, hden, ok_bind, quotient_nearest_eq hb]
    by_cases h : (b.val.natAbs : Int) ≤ 2 * (p.tmod b.val).natAbs
    · rw [if_pos h, if_pos h]
      have h1 := natAbs_sign_mul_le p b.val.sign
      have h2 := natAbs_sign_mul_le b.val 1
      rw [mul_one] at h2
      exact Word.fit_eq_ok (Word.fits_of_natAbs_lt (by omega))
    · rw [if_neg h, if_neg h]
      rfl

/-! ### The four operations -/

/-- **The exact result of an operation**, rounded to a whole number of raw units. -/
def exact (f : Format) (op : Op) (a b : Scaled) : Int :=
  match op with
  | .multiply => f.rounding.product (pow2 f.fracBits) (a.val * b.val)
  | .divide => f.rounding.quotient (a.val * pow2 f.fracBits) b.val
  | .add => a.val + b.val
  | .subtract => a.val - b.val

/-- **What a format computes**: the exact result, rounded once and handed to the overflow
policy; only a division by zero has a rule of its own. -/
theorem apply_eq_narrow (f : Format) (op : Op) (a b : Scaled) :
    f.arithmetic.apply op a b =
      if op = .divide ∧ b.val = 0 then f.divideByZero a
      else f.narrow op.name (f.exact op a b) := by
  have ha := a.natAbs_val_le
  have hb := b.natAbs_val_le
  cases op with
  | multiply =>
    have hm := Scaled.natAbs_val_mul_le a b
    rw [if_neg (by simp)]
    change f.multiply a b = _
    rw [multiply, Word.mul, Word.fit_eq_ok (Word.fits_of_natAbs_lt (by omega)), ok_bind,
      f.roundProduct_eq hm]
    rfl
  | divide =>
    change f.divide a b = _
    by_cases h0 : b.val = 0
    · rw [divide, if_pos h0, if_pos ⟨rfl, h0⟩]
    · have hn := f.natAbs_val_mul_pow2_le a
      have hk : f.fracBits ≤ 30 := f.fracBits_le
      rw [divide, if_neg h0, if_neg (by simp [h0]), Word.shiftLeft, if_pos (by omega),
        Word.fit_eq_ok (Word.fits_of_natAbs_lt (by omega)), ok_bind, f.roundQuotient_eq hn h0]
      rfl
  | add =>
    rw [if_neg (by simp)]
    change f.add a b = _
    rw [add, Word.add, Word.fit_eq_ok (Word.fits_of_natAbs_lt (by omega))]
    rfl
  | subtract =>
    rw [if_neg (by simp)]
    change f.subtract a b = _
    rw [subtract, Word.sub, Word.fit_eq_ok (Word.fits_of_natAbs_lt (by omega))]
    rfl

/-! ### The overflow policies -/

/-- A result in range is kept by every policy. -/
theorem narrow_of_inRange (f : Format) (operation : String) {z : Int} (h : Scaled.InRange z) :
    f.narrow operation z = .ok (.wrap z) := by
  rw [narrow]
  cases f.overflow with
  | wrapping => rfl
  | saturating =>
    have hz : Scaled.clamp z = .wrap z := by
      obtain ⟨h1, h2⟩ := h
      rw [Scaled.clamp, if_neg (by omega), if_neg (by omega)]
    exact congrArg Except.ok hz
  | checked => simp only [Scaled.ofInt?, if_pos h]

/-- A checked result is the exact one. -/
theorem narrow_checked {f : Format} (hf : f.overflow = .checked) (operation : String) (z : Int) :
    f.narrow operation z =
      if Scaled.InRange z then .ok (.wrap z) else .error (.overflow operation) := by
  rw [narrow, hf, Scaled.ofInt?]
  by_cases h : Scaled.InRange z
  · simp only [if_pos h]
  · simp only [if_neg h]

/-- **The answers of a checked format**: every operation but a division by zero, if its
rounded result is in range. -/
theorem apply_checked_eq_ok_iff {f : Format} (hf : f.overflow = .checked) {op : Op}
    {a b r : Scaled} :
    f.arithmetic.apply op a b = .ok r ↔ ¬(op = .divide ∧ b.val = 0) ∧ r.val = f.exact op a b := by
  rw [apply_eq_narrow]
  by_cases h0 : op = .divide ∧ b.val = 0
  · simp [divideByZero, hf, h0]
  · rw [if_neg h0, narrow_checked hf]
    by_cases hr : Scaled.InRange (f.exact op a b)
    · rw [if_pos hr, Except.ok.injEq]
      constructor
      · rintro rfl
        exact ⟨h0, Scaled.val_wrap_of_inRange hr⟩
      · rintro ⟨-, h⟩
        rw [← h, Scaled.wrap_val]
    · rw [if_neg hr]
      constructor
      · rintro ⟨⟩
      · rintro ⟨-, h⟩
        exact absurd (h ▸ r.inRange_val) hr

end Format

end ScaledGauss
